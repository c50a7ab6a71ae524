import Arbor.Document.Tree
import Arbor.Proofs.JsonText
import Arbor.Proofs.RebuiltLinks

/-!
The text of a tree reads back as its nodes and its count of generated names.

Every kind of field has one lemma: what is written for it is read as itself. Types and nodes are
assembled from these. Types are nested to any depth and the reader has a limit, so what they
carry is that their text is nested no deeper than the reader still goes.
-/
namespace Arbor

namespace Json

theorem Numeral.isWhole_toDigits (n : Nat) : isWhole (Nat.toDigits 10 n) = true := by
  rw [isWhole, List.all_eq_true]
  intro c hc
  exact Reader.isDigit_of_mem hc

theorem Numeral.ofDigits_toDigits (n : Nat) : ofDigits (Nat.toDigits 10 n) = n := by
  have hsame : ∀ ds, ofDigits ds = Nat.ofDigitChars 10 ds 0 := by
    intro ds
    simp only [ofDigits, digitOf, Nat.ofDigitChars, Nat.mul_comm]
  rw [hsame, Nat.ofDigitChars_ten_toDigits]

theorem Numeral.int?_toString (n : Int) : int? (toString n) = some n := by
  cases n with
  | ofNat n =>
    have hhead : ∀ ds, Nat.toDigits 10 n ≠ '-' :: ds := by
      intro ds h
      exact absurd (Reader.isDigit_of_mem (h ▸ List.mem_cons_self)) (by decide)
    unfold int?
    rw [Digits.toList_ofNat]
    split
    · next ds h => exact absurd h (hhead ds)
    · rw [isWhole_toDigits, if_pos rfl, ofDigits_toDigits]
      rfl
  | negSucc n =>
    unfold int?
    rw [Digits.toList_negSucc]
    simp only [isWhole_toDigits, ofDigits_toDigits]
    rfl

theorem int?_ofInt {n : Int} (hmin : Int64.minValue.toInt ≤ n) (hmax : n < UInt64.size) :
    (ofInt n).int? = some n := by
  have hword : Int64.minValue.toInt ≤ n && n < UInt64.size := by
    rw [Bool.and_eq_true, decide_eq_true_eq, decide_eq_true_eq]
    exact ⟨hmin, hmax⟩
  change Numeral.word? (toString n) = some n
  rw [Numeral.word?, Numeral.int?_toString, Option.bind_some, if_pos hword]

theorem ofInt_natCast (n : Nat) : ofInt n = ofNat n := rfl

theorem natBelow?_ofNat {n bound : Nat} (hn : n < bound) (hb : bound ≤ UInt64.size) :
    (ofNat n).natBelow? bound = some n := by
  have hmin : Int64.minValue.toInt ≤ (n : Int) := Int.le_trans (by decide) (Int.natCast_nonneg n)
  have hmax : (n : Int) < UInt64.size := Int.ofNat_lt.2 (Nat.lt_of_lt_of_le hn hb)
  have hint : (ofInt n).int? = some (n : Int) := int?_ofInt hmin hmax
  rw [ofInt_natCast] at hint
  simp [natBelow?, hint, hn]

theorem nodeId?_ofNat {n : Nat} (hn : n < UInt32.size) : (ofNat n).nodeId? = some n :=
  natBelow?_ofNat hn (by decide)

theorem int64?_ofInt (v : Int64) : (ofInt v.toInt).int64? = some v := by
  have hmax : v.toInt ≤ Int64.maxValue.toInt := Int64.toInt_le v
  have hword : v.toInt < UInt64.size := Int.lt_of_le_of_lt hmax (by decide)
  simp [int64?, int?_ofInt (Int64.le_toInt v) hword, hmax]

theorem uint64?_ofNat (v : UInt64) : (ofNat v.toNat).uint64? = some v := by
  simp [uint64?, natBelow?_ofNat v.toNat_lt_size (Nat.le_refl _)]

theorem uint8?_ofNat (v : UInt8) : (ofNat v.toNat).uint8? = some v := by
  simp [uint8?, natBelow?_ofNat v.toNat_lt_size (by decide)]

theorem list?_ofList {α : Type} {read : Json → Option α} {write : α → Json} {as : List α}
    (h : ∀ a ∈ as, read (write a) = some a) : list? read (ofList write as) = some as :=
  mapM_map_eq_some h

/-- A value that is written as `null` would be taken for a missing one. -/
theorem optional?_ofOption {α : Type} {read : Json → Option α} {write : α → Json} {o : Option α}
    (hnull : ∀ a, write a ≠ .null) (h : ∀ a ∈ o, read (write a) = some a) :
    (ofOption write o).optional? read = some o := by
  cases o with
  | none => rfl
  | some a =>
    have hread : read (write a) = some a := h a rfl
    change (write a).optional? read = some (some a)
    unfold optional?
    split
    · next heq => exact absurd heq (hnull a)
    · rw [hread]
      rfl

theorem depth_le_of_mem {items : List Json} {j : Json} (h : j ∈ items) :
    j.depth ≤ depthOfItems items := by
  induction items with
  | nil => exact absurd h List.not_mem_nil
  | cons item items ih =>
    rw [depthOfItems]
    rcases List.mem_cons.1 h with rfl | h
    · exact Nat.le_max_left _ _
    · exact Nat.le_trans (ih h) (Nat.le_max_right _ _)

theorem depth_field {kind : String} {fields : List (String × Json)} {depth : Nat} (name : String)
    {j : Json} (h : (record kind fields).depth ≤ depth) (hj : (name, j) ∈ fields) :
    j.depth ≤ depth - 2 := by
  have hle : j.depth ≤ depthOfMembers fields := by
    induction fields with
    | nil => exact absurd hj List.not_mem_nil
    | cons field fields ih =>
      simp only [record, variant, Json.depth, depthOfMembers] at h ih ⊢
      rcases List.mem_cons.1 hj with rfl | hj
      · exact Nat.le_max_left _ _
      · exact Nat.le_trans (ih (by omega) hj) (Nat.le_max_right _ _)
  simp only [record, variant, Json.depth, depthOfMembers, Nat.max_zero] at h
  omega

theorem Plain.record {kind : String} {fields : List (String × Json)}
    (h : fields.Forall (Plain ·.2)) : Plain (.record kind fields) := by
  have hfields : Plain (.object fields) := .object (List.forall_iff_forall_mem.1 h)
  exact .object (by simpa using hfields)

theorem Plain.ofOption {α : Type} {write : α → Json} (h : ∀ a, Plain (write a)) (o : Option α) :
    Plain (.ofOption write o) := by
  cases o with
  | none => exact .null
  | some a => exact h a

theorem Plain.ofList {α : Type} {write : α → Json} {as : List α} (h : ∀ a ∈ as, Plain (write a)) :
    Plain (.ofList write as) := by
  refine .array fun item hitem => ?_
  obtain ⟨a, ha, rfl⟩ := List.mem_map.1 hitem
  exact h a ha

end Json

theorem Scalar.ofName?_name (s : Scalar) : Scalar.ofName? s.name = some s := by
  cases s <;> decide

theorem Operator.ofJson?_name (op : Operator) : Operator.ofJson? (.string op.name) = some op := by
  cases op <;> decide

theorem Record.ofJson?_object {names : List String} {fields : List (String × Json)}
    (hnames : fields.map (·.1) = names) (hdistinct : names.Nodup) :
    Record.ofJson? names (.object fields) = some fields := by
  have hknown : (fields.filter fun m => names.contains m.1) = fields := by
    rw [List.filter_eq_self]
    intro m hm
    rw [← hnames]
    exact List.contains_iff_mem.2 (List.mem_map_of_mem hm)
  simp only [Record.ofJson?, hknown, hnames, hdistinct, if_true]

namespace CType

theorem ofJson?_pointer (depth : Nat) (contents : Json) :
    ofJson? (depth + 1) (.object [("Ptr", contents)]) = (ofJson? depth contents).map pointer := by
  rw [ofJson?.eq_def]
  simp

mutual

theorem ofJson?_toJson (ty : CType) {depth : Nat} (h : ty.toJson.depth ≤ depth) :
    ofJson? depth ty.toJson = some ty := by
  cases ty with
  | scalar s => cases depth <;> simp [toJson, ofJson?, Scalar.ofName?_name]
  | pointer pointee =>
    simp only [toJson, Json.variant, Json.depth, Json.depthOfMembers, Nat.max_zero] at h
    obtain ⟨depth, rfl⟩ : ∃ d, depth = d + 1 := ⟨depth - 1, by omega⟩
    have hread := ofJson?_toJson pointee (Nat.le_of_succ_le_succ h)
    rw [toJson, Json.variant, ofJson?_pointer, hread]
    rfl
  | function result params =>
    simp only [toJson, Json.record, Json.variant, Json.depth, Json.depthOfMembers] at h
    obtain ⟨depth, rfl⟩ : ∃ d, depth = d + 3 := ⟨depth - 3, by omega⟩
    have hresult := ofJson?_toJson result (show _ ≤ depth + 1 by omega)
    have hparams := mapM_listToJson params (show _ ≤ depth by omega)
    have hrecord : Record.ofJson? ["ret", "args"]
        (.object [("ret", result.toJson), ("args", .array (listToJson params))]) =
          some [("ret", result.toJson), ("args", .array (listToJson params))] :=
      Record.ofJson?_object rfl (by decide)
    simp [toJson, ofJson?, Json.record, Json.variant, hrecord, Record.required?, Table.get?,
      Json.list?, Json.items?, hresult, hparams]

theorem mapM_listToJson (tys : List CType) {depth : Nat}
    (h : Json.depthOfItems (listToJson tys) ≤ depth) :
    (listToJson tys).mapM (ofJson? depth) = some tys := by
  cases tys with
  | nil => rfl
  | cons ty tys =>
    simp only [listToJson, Json.depthOfItems] at h
    have hfirst := ofJson?_toJson ty (show _ ≤ depth by omega)
    have hrest := mapM_listToJson tys (show _ ≤ depth by omega)
    simp [listToJson, List.mapM_cons, hfirst, hrest]

end

theorem toJson_ne_null (ty : CType) : ty.toJson ≠ .null := by
  cases ty <;> simp [toJson, Json.variant, Json.record]

mutual

theorem toJson_plain (ty : CType) : Json.Plain ty.toJson := by
  cases ty with
  | scalar s => exact .string _
  | pointer pointee =>
    have hp := toJson_plain pointee
    exact .object (by simpa using hp)
  | function result params =>
    have hr := toJson_plain result
    have hps : Json.Plain (.array (listToJson params)) := .array (listToJson_plain params)
    have hrecord : Json.Plain
        (.object [("ret", result.toJson), ("args", .array (listToJson params))]) :=
      .object (by simpa using ⟨hr, hps⟩)
    exact .object (by simpa using hrecord)

theorem listToJson_plain (tys : List CType) : ∀ item ∈ listToJson tys, Json.Plain item := by
  cases tys with
  | nil => simp [listToJson]
  | cons ty tys =>
    have hty := toJson_plain ty
    have htys := listToJson_plain tys
    rw [listToJson, List.forall_mem_cons]
    exact ⟨hty, htys⟩

end

end CType

namespace Attributes

theorem place_last {name text : String} {entries : List (String × String)}
    (h : ∀ e ∈ entries, e.1 < name) : place name text entries = entries ++ [(name, text)] := by
  induction entries with
  | nil => rfl
  | cons e entries ih =>
    have hbefore : e.1 < name := h e List.mem_cons_self
    have hrest := ih fun e he => h e (List.mem_cons_of_mem _ he)
    have hne : name ≠ e.1 := fun heq => String.lt_irrefl _ (heq ▸ hbefore)
    rw [place, if_neg (String.lt_asymm hbefore), if_neg hne, hrest]
    rfl

theorem foldl_insert_entries (attrs : Attributes) {entries : List (String × String)}
    (h : Ascending (attrs.entries ++ entries)) :
    (entries.foldl (fun a (name, text) => a.insert name text) attrs).entries =
      attrs.entries ++ entries := by
  induction entries generalizing attrs with
  | nil => simp
  | cons e entries ih =>
    have hlast : (attrs.insert e.1 e.2).entries = attrs.entries ++ [e] :=
      place_last fun a ha => (List.pairwise_append.1 h).2.2 a ha e List.mem_cons_self
    have happend : (attrs.insert e.1 e.2).entries ++ entries = attrs.entries ++ e :: entries := by
      rw [hlast, List.append_assoc]
      rfl
    rw [List.foldl_cons, ih _ (happend ▸ h), happend]

theorem ofList_entries (attrs : Attributes) : ofList attrs.entries = attrs := by
  have hentries : (ofList attrs.entries).entries = attrs.entries :=
    foldl_insert_entries empty attrs.ascending
  cases attrs
  cases h : ofList _
  simp_all

theorem ofJson?_toJson (attrs : Attributes) : ofJson? attrs.toJson = some attrs := by
  have hread : (attrs.entries.map fun e => (e.1, Json.string e.2)).mapM
      (fun m => m.2.text?.map (m.1, ·)) = some attrs.entries :=
    mapM_map_eq_some fun _ _ => rfl
  exact bind_some_of hread (congrArg some (ofList_entries attrs))

theorem toJson_plain (attrs : Attributes) : Json.Plain attrs.toJson := by
  refine .object fun member hmember => ?_
  obtain ⟨entry, -, rfl⟩ := List.mem_map.1 hmember
  exact .string _

end Attributes

/-- The text of the number is a numeral, and the numeral is worth the number. -/
def Binary64.Exact (v : Binary64) : Prop :=
  ∃ text ∈ v.write? .documentDouble, Json.IsNumeral text ∧ Json.Numeral.binary64? text = some v

def Binary32.Exact (v : Binary32) : Prop :=
  ∃ text ∈ v.write? .documentSingle, Json.IsNumeral text ∧ Json.Numeral.binary32? text = some v

namespace Value

def Exact : Value → Prop
  | .float v => v.Exact
  | .double v => v.Exact
  | _ => True

theorem ofJson?_toJson {v : Value} (h : v.Exact) :
    ofJson? .numeral (v.toJson .numeral) = some v := by
  cases v with
  | int v => simp [toJson, ofJson?, Json.variant, Json.variant?, Json.int64?_ofInt]
  | uint v => simp [toJson, ofJson?, Json.variant, Json.variant?, Json.uint64?_ofNat]
  | float v =>
    obtain ⟨text, htext, -, hworth⟩ := h
    have hjson : v.toJson .numeral = .number text := by
      rw [Binary32.toJson, Option.mem_def.1 htext]
      rfl
    simp [toJson, ofJson?, Json.variant, Json.variant?, hjson, Binary32.ofJson?, hworth]
  | double v =>
    obtain ⟨text, htext, -, hworth⟩ := h
    have hjson : v.toJson .numeral = .number text := by
      rw [Binary64.toJson, Option.mem_def.1 htext]
      rfl
    simp [toJson, ofJson?, Json.variant, Json.variant?, hjson, Binary64.ofJson?, hworth]
  | char v => simp [toJson, ofJson?, Json.variant, Json.variant?, Json.uint8?_ofNat]
  | bool v => rfl

theorem toJson_plain {v : Value} (h : v.Exact) : Json.Plain (v.toJson .numeral) := by
  have hvariant : ∀ {name : String} {j : Json}, Json.Plain j → Json.Plain (.variant name j) :=
    fun hj => .object (by simpa using hj)
  cases v with
  | int v => exact hvariant (.integer _)
  | uint v => exact hvariant (.natural _)
  | float v =>
    obtain ⟨text, htext, hnumeral, -⟩ := h
    refine hvariant ?_
    rw [Binary32.toJson, Option.mem_def.1 htext]
    exact .number hnumeral
  | double v =>
    obtain ⟨text, htext, hnumeral, -⟩ := h
    refine hvariant ?_
    rw [Binary64.toJson, Option.mem_def.1 htext]
    exact .number hnumeral
  | char v => exact hvariant (.natural _)
  | bool v => exact hvariant (.bool _)

end Value

namespace Node

def Exact : Node → Prop
  | .constant v => v.Exact
  | _ => True

theorem fieldNames?_nodup {kind : String} {names : List String}
    (h : fieldNames? kind = some names) : names.Nodup := by
  unfold fieldNames? at h
  split at h <;> first | cases h; decide | cases h

theorem ofJson?_record {form : FloatForm} {depth : Nat} {kind : String}
    {fields : List (String × Json)} (hnames : fieldNames? kind = some (fields.map (·.1))) :
    ofJson? form depth (.record kind fields) = ofRecord? form (depth - 2) kind fields := by
  have hrecord : Record.ofJson? (fields.map (·.1)) (.object fields) = some fields :=
    Record.ofJson?_object rfl (fieldNames?_nodup hnames)
  simp [ofJson?, Json.record, Json.variant, Json.variant?, hnames, hrecord]

end Node

/-- What stands in a slot fits a word. -/
def Slot.Fits (slot : Slot) : Prop := ∀ id ∈ slot.ids, id < UInt32.size

theorem Slot.Fits.required {id : NodeId} (h : (Slot.required id).Fits) :
    (Json.ofNat id).nodeId? = some id :=
  Json.nodeId?_ofNat (h id List.mem_cons_self)

theorem Slot.Fits.optional {id : Option NodeId} (h : (Slot.optional id).Fits) :
    (Json.ofOption .ofNat id).optional? Json.nodeId? = some id :=
  Json.optional?_ofOption (by simp [Json.ofNat])
    fun i hi => Json.nodeId?_ofNat (h i (Option.mem_toList.2 hi))

theorem Slot.Fits.list {ids : List NodeId} (h : (Slot.list ids).Fits) :
    Json.list? Json.nodeId? (Node.idsToJson ids) = some ids :=
  Json.list?_ofList fun id hid => Json.nodeId?_ofNat (h id hid)

theorem CType.optional?_toJson {ty : Option CType} {depth : Nat}
    (h : (Json.ofOption CType.toJson ty).depth ≤ depth) :
    (Json.ofOption CType.toJson ty).optional? (CType.ofJson? depth) = some ty := by
  refine Json.optional?_ofOption CType.toJson_ne_null ?_
  rintro a rfl
  exact CType.ofJson?_toJson a h

namespace Node

theorem ofJson?_toJson {n : Node} {depth : Nat} (hslots : n.slots.Forall (·.2.Fits))
    (hexact : n.Exact) (hdepth : (n.toJson .numeral).depth ≤ depth) :
    ofJson? .numeral depth (n.toJson .numeral) = some n := by
  cases n with
  | breakLoop => rfl
  | continueLoop => rfl
  | pass => rfl
  | project files =>
    refine (ofJson?_record rfl).trans ?_
    exact bind_some_of hslots.list rfl
  | file name body =>
    refine (ofJson?_record rfl).trans ?_
    exact bind_some_of hslots.list rfl
  | ret value =>
    refine (ofJson?_record rfl).trans ?_
    exact bind_some_of hslots.optional rfl
  | branch cond thenBody elseBody =>
    obtain ⟨hcond, hthen, helse⟩ := hslots
    refine (ofJson?_record rfl).trans ?_
    exact bind_some_of hcond.required
      (bind_some_of hthen.required (bind_some_of helse.optional rfl))
  | whileLoop cond body =>
    obtain ⟨hcond, hbody⟩ := hslots
    refine (ofJson?_record rfl).trans ?_
    exact bind_some_of hcond.required (bind_some_of hbody.required rfl)
  | doWhile body cond =>
    obtain ⟨hbody, hcond⟩ := hslots
    refine (ofJson?_record rfl).trans ?_
    exact bind_some_of hbody.required (bind_some_of hcond.required rfl)
  | forLoop init test incr body =>
    obtain ⟨hinit, htest, hincr, hbody⟩ := hslots
    refine (ofJson?_record rfl).trans ?_
    exact bind_some_of hinit.optional (bind_some_of htest.optional (bind_some_of hincr.optional
      (bind_some_of hbody.required rfl)))
  | block body =>
    refine (ofJson?_record rfl).trans ?_
    exact bind_some_of hslots.list rfl
  | function returnType name params defn isStatic isInline =>
    obtain ⟨hparams, hdefn⟩ := hslots
    have hty := CType.ofJson?_toJson returnType (Json.depth_field "return_type" hdepth (by simp))
    refine (ofJson?_record rfl).trans ?_
    exact bind_some_of hty (bind_some_of rfl (bind_some_of hparams.list
      (bind_some_of hdefn.optional rfl)))
  | unary op arg =>
    refine (ofJson?_record rfl).trans ?_
    exact bind_some_of (Operator.ofJson?_name op) (bind_some_of hslots.required rfl)
  | binary left op right =>
    obtain ⟨hleft, hright⟩ := hslots
    refine (ofJson?_record rfl).trans ?_
    exact bind_some_of hleft.required (bind_some_of (Operator.ofJson?_name op)
      (bind_some_of hright.required rfl))
  | augAssign target op value =>
    obtain ⟨htarget, hvalue⟩ := hslots
    refine (ofJson?_record rfl).trans ?_
    exact bind_some_of htarget.required (bind_some_of (Operator.ofJson?_name op)
      (bind_some_of hvalue.required rfl))
  | ternary cond thenValue elseValue =>
    obtain ⟨hcond, hthen, helse⟩ := hslots
    refine (ofJson?_record rfl).trans ?_
    exact bind_some_of hcond.required
      (bind_some_of hthen.required (bind_some_of helse.required rfl))
  | cast ty value =>
    have hty := CType.ofJson?_toJson ty (Json.depth_field "ty" hdepth (by simp))
    refine (ofJson?_record rfl).trans ?_
    exact bind_some_of hty (bind_some_of hslots.required rfl)
  | call func args ty =>
    obtain ⟨hfunc, hargs⟩ := hslots
    have hdeep : (Json.ofOption CType.toJson ty).depth ≤ depth - 2 :=
      Json.depth_field "ty" hdepth (by simp)
    have hty := CType.optional?_toJson hdeep
    refine (ofJson?_record rfl).trans ?_
    exact bind_some_of hfunc.required (bind_some_of hargs.list (bind_some_of hty rfl))
  | arrayDef target size body =>
    obtain ⟨htarget, hsize, hbody⟩ := hslots
    refine (ofJson?_record rfl).trans ?_
    exact bind_some_of htarget.required (bind_some_of hsize.required (bind_some_of hbody.list rfl))
  | constant value =>
    refine (ofJson?_record rfl).trans ?_
    exact bind_some_of (Value.ofJson?_toJson hexact) rfl
  | string value => exact ofJson?_record rfl
  | symbol name ty isConst =>
    have hdeep : (Json.ofOption CType.toJson ty).depth ≤ depth - 2 :=
      Json.depth_field "ty" hdepth (by simp)
    have hty := CType.optional?_toJson hdeep
    refine (ofJson?_record rfl).trans ?_
    exact bind_some_of hty rfl
  | inclusion target system => exact ofJson?_record rfl
  | comment text => exact ofJson?_record rfl
  | custom kind attrs children =>
    refine (ofJson?_record rfl).trans ?_
    exact bind_some_of (Attributes.ofJson?_toJson attrs) (bind_some_of hslots.list rfl)

theorem idsToJson_plain (ids : List NodeId) : Json.Plain (idsToJson ids) :=
  .ofList fun id _ => .natural id

theorem toJson_plain {n : Node} (hexact : n.Exact) : Json.Plain (n.toJson .numeral) := by
  have hid : ∀ id : NodeId, Json.Plain (.ofNat id) := Json.Plain.natural
  have hoptional : ∀ id : Option NodeId, Json.Plain (.ofOption .ofNat id) := .ofOption hid
  have htype : ∀ ty : Option CType, Json.Plain (.ofOption CType.toJson ty) :=
    .ofOption CType.toJson_plain
  cases n with
  | breakLoop | continueLoop | pass => exact .string _
  | project files => exact .record (idsToJson_plain files)
  | file name body => exact .record ⟨.string _, idsToJson_plain body⟩
  | ret value => exact .record (hoptional value)
  | branch cond thenBody elseBody => exact .record ⟨hid _, hid _, hoptional _⟩
  | whileLoop cond body => exact .record ⟨hid _, hid _⟩
  | doWhile body cond => exact .record ⟨hid _, hid _⟩
  | forLoop init test incr body => exact .record ⟨hoptional _, hoptional _, hoptional _, hid _⟩
  | block body => exact .record (idsToJson_plain body)
  | function returnType name params defn isStatic isInline =>
    exact .record ⟨returnType.toJson_plain, .string _, idsToJson_plain params, hoptional _,
      .bool _, .bool _⟩
  | unary op arg => exact .record ⟨.string _, hid _⟩
  | binary left op right => exact .record ⟨hid _, .string _, hid _⟩
  | augAssign target op value => exact .record ⟨hid _, .string _, hid _⟩
  | ternary cond thenValue elseValue => exact .record ⟨hid _, hid _, hid _⟩
  | cast ty value => exact .record ⟨ty.toJson_plain, hid _⟩
  | call func args ty => exact .record ⟨hid _, idsToJson_plain args, htype ty⟩
  | arrayDef target size body => exact .record ⟨hid _, hid _, idsToJson_plain body⟩
  | constant value => exact .record (Value.toJson_plain hexact)
  | string value => exact .record (.string _)
  | symbol name ty isConst => exact .record ⟨.string _, htype ty, .bool _⟩
  | inclusion target system => exact .record ⟨.string _, .bool _⟩
  | comment text => exact .record (.string _)
  | custom kind attrs children =>
    exact .record ⟨.string _, attrs.toJson_plain, idsToJson_plain children⟩

end Node

namespace Tree

/-- What a document can hold and its text can tell: ids and a count that fit a word, floating
constants only where the numeral is worth the constant, and values nested no deeper than texts
are read. -/
structure Storable (t : Tree) : Prop where
  ids : ∀ node ∈ t.nodes, ∀ c ∈ node.children, c < UInt32.size
  count : t.nextUnique < UInt32.size
  exact : ∀ node ∈ t.nodes, node.Exact
  nested : (t.toJson .numeral).depth < 128

theorem Storable.parse?_serialize {t : Tree} (h : t.Storable) :
    parse? t.serialize = some t.fixParents := by
  have hplain : Json.Plain (t.toJson .numeral) := by
    have hnodes : Json.Plain (.ofList (Node.toJson .numeral) t.nodes) :=
      .ofList fun node hnode => Node.toJson_plain (h.exact node hnode)
    exact .object (by simpa using ⟨hnodes, .natural _⟩)
  have hdeep : ∀ node ∈ t.nodes, (node.toJson .numeral).depth ≤ Document.depthLimit - 2 := by
    intro node hnode
    have hle : (node.toJson .numeral).depth ≤
        Json.depthOfItems (t.nodes.map (Node.toJson .numeral)) :=
      Json.depth_le_of_mem (List.mem_map_of_mem hnode)
    have hnested := h.nested
    simp only [toJson, Json.ofList, Json.depth, Json.depthOfMembers] at hnested
    simp only [Document.depthLimit]
    omega
  have hnodes : Json.list? (Node.ofJson? .numeral (Document.depthLimit - 2))
      (.ofList (Node.toJson .numeral) t.nodes) = some t.nodes := by
    refine Json.list?_ofList fun node hnode => ?_
    refine Node.ofJson?_toJson (List.forall_iff_forall_mem.2 ?_) (h.exact node hnode)
      (hdeep node hnode)
    intro slot hslot id hid
    exact h.ids node hnode id (List.mem_flatMap.2 ⟨slot, hslot, hid⟩)
  have hcount : (Json.ofNat t.nextUnique).natBelow? UInt32.size = some t.nextUnique :=
    Json.natBelow?_ofNat h.count (by decide)
  rw [parse?, serialize, ← ofNodes_nodes]
  exact bind_some_of hplain.parse?_write (bind_some_of hnodes (bind_some_of hcount rfl))

theorem nodes_fixParents (t : Tree) : t.fixParents.nodes = t.nodes :=
  nodes_eq_of_get? (get?_fixParents t)

/-- The text of a tree is read, and what is read are its nodes and its count. -/
theorem parse?_serialize_nodes {t : Tree} (h : t.Storable) :
    ∃ t', parse? t.serialize = some t' ∧ t'.nodes = t.nodes ∧ t'.nextUnique = t.nextUnique :=
  ⟨t.fixParents, h.parse?_serialize, nodes_fixParents t, nextUnique_fixParents t⟩

/-- Limits of all widths, strings that need escapes, nested types, missing and present optional
fields, attributes. -/
def assorted : Tree :=
  ⟨#[⟨.constant (.int Int64.minValue), some 2⟩, ⟨.constant (.uint 18446744073709551615), some 2⟩,
    ⟨.forLoop (some 0) none (some 1) 3, some 8⟩, ⟨.string "\"\\/\x01\n\x7fé😀\u2028", some 2⟩,
    ⟨.symbol "f" (some (.function (.pointer (.scalar .void))
      [.pointer (.function (.scalar .int) []), .scalar .longDouble])) true, some 6⟩,
    ⟨.constant (.char 255), some 6⟩, ⟨.call 4 [5, 7] none, some 8⟩,
    ⟨.constant (.bool true), some 6⟩,
    ⟨.custom "Pragma" (.ofList [("text", "once\t"), ("a\"b", "")]) [2, 6], none⟩,
    ⟨.ret none, none⟩, ⟨.function (.scalar .uchar) "g" [] (some 11) true false, none⟩,
    ⟨.block [4294967295], some 10⟩, ⟨.binary 4 .shl 4, none⟩], 4294967295⟩

theorem parse?_serialize_nodes_assorted :
    assorted.Storable ∧ ∃ t', parse? assorted.serialize = some t' ∧ t'.nodes = assorted.nodes ∧
      t'.nextUnique = 4294967295 := by
  have h : assorted.Storable :=
    ⟨by decide, by decide, by simp [nodes, assorted, Node.Exact, Value.Exact], by decide⟩
  exact ⟨h, parse?_serialize_nodes h⟩

end Tree
end Arbor
