import Arbor.Proofs.Region
import Arbor.Render.Source
import Mathlib.Data.List.Infix

/-!
The bytes that a string literal denotes.

C reads a literal from the left. After a backslash it takes as many octal digits as there are, up to
three, or else one mark that stands for a byte; every other character stands for itself. What an
escape denotes may thus depend on the text behind it. Escapes of three digits are complete, and so
are marks, but the escape of the byte 0 has one digit and takes in octal digits that come next. A
literal always has a reading, and it is the one that was meant unless such a digit follows a 0.
-/
namespace Arbor
namespace Literal

def isOctal (c : Char) : Bool := '0' ≤ c && c ≤ '7'

def octalRun (cs : List Char) : List Char := (cs.take 3).takeWhile isOctal

def mark? : Char → Option UInt8
  | '\'' => some 0x27
  | '"' => some 0x22
  | '?' => some 0x3f
  | '\\' => some 0x5c
  | 'a' => some 0x07
  | 'b' => some 0x08
  | 'f' => some 0x0c
  | 'n' => some 0x0a
  | 'r' => some 0x0d
  | 't' => some 0x09
  | 'v' => some 0x0b
  | _ => none

def isPrintable (c : Char) : Bool := ' ' ≤ c && c ≤ '~'

/-- The bytes of the text between the quotes. A quote, a line end or a character that cannot be
printed is refused where it is not escaped, and so is an octal number that is no byte. -/
def bytes? : List Char → Option (List UInt8)
  | [] => some []
  | c :: cs =>
    if c = '\\' then
      let run := octalRun cs
      if run.isEmpty then
        match cs with
        | [] => none
        | d :: rest => (mark? d).bind fun b => (bytes? rest).map (b :: ·)
      else
        let value := Nat.ofDigitChars 8 run 0
        if value < 256 then (bytes? (cs.drop run.length)).map (value.toUInt8 :: ·) else none
    else if isPrintable c && c ≠ '"' then (bytes? cs).map (c.toNat.toUInt8 :: ·)
    else none
termination_by cs => cs.length

/-- The bytes of a literal with its quotes. -/
def stringBytes? (text : String) : Option (List UInt8) :=
  match text.toList with
  | '"' :: rest => if rest.getLast? = some '"' then bytes? rest.dropLast else none
  | _ => none

theorem bytes?_printable {c : Char} (hc : isPrintable c) (hq : c ≠ '"') (hb : c ≠ '\\')
    (cs : List Char) : bytes? (c :: cs) = (bytes? cs).map (c.toNat.toUInt8 :: ·) := by
  rw [bytes?.eq_def]
  simp [hc, hq, hb]

theorem bytes?_mark {d : Char} {b : UInt8} (hd : isOctal d = false) (hm : mark? d = some b)
    (cs : List Char) : bytes? ('\\' :: d :: cs) = (bytes? cs).map (b :: ·) := by
  have hrun : octalRun (d :: cs) = [] := by simp [octalRun, hd]
  rw [bytes?.eq_def]
  simp [hrun, hm]

def Ends (cs : List Char) : Prop := ∀ c ∈ cs.head?, isOctal c = false

theorem octalRun_append {digits cs : List Char} (hall : ∀ d ∈ digits, isOctal d)
    (hlength : digits.length ≤ 3) (hend : digits.length = 3 ∨ Ends cs) :
    octalRun (digits ++ cs) = digits := by
  have hrest : (cs.take (3 - digits.length)).takeWhile isOctal = [] := by
    rcases hend with h | h
    · simp [h]
    · cases cs with
      | nil => simp
      | cons c cs =>
        have hc := h c rfl
        cases 3 - digits.length with
        | zero => rfl
        | succ n => simp [hc]
  rw [octalRun, List.take_append, List.take_of_length_le hlength, List.takeWhile_append_of_pos hall,
    hrest, List.append_nil]

theorem bytes?_octal (digits : List Char) {cs : List Char} (hall : ∀ d ∈ digits, isOctal d)
    (hne : digits ≠ []) (hlength : digits.length ≤ 3) (hend : digits.length = 3 ∨ Ends cs)
    (hlt : Nat.ofDigitChars 8 digits 0 < 256) :
    bytes? ('\\' :: digits ++ cs) =
      (bytes? cs).map ((Nat.ofDigitChars 8 digits 0).toUInt8 :: ·) := by
  have hrun := octalRun_append hall hlength hend
  rw [List.cons_append, bytes?.eq_def]
  simp only [hrun, List.isEmpty_iff, hne, if_false, hlt, if_true, List.drop_left]

def isOctalByte (b : UInt8) : Bool := 0x30 ≤ b && b ≤ 0x37

inductive Escaped : UInt8 → List Char → Prop where
  | null : Escaped 0 ['\\', '0']
  | mark {b d} : b ≠ 0 → isOctalByte b = false → isOctal d = false → isPrintable d →
      mark? d = some b → Escaped b ['\\', d]
  | plain {b c} : b ≠ 0 → isPrintable c → c ≠ '"' → c ≠ '\\' → c.toNat = b.toNat → Escaped b [c]
  | octal {b d₁ d₂ d₃} : b ≠ 0 → isOctalByte b = false → (∀ d ∈ [d₁, d₂, d₃], isOctal d) →
      Nat.ofDigitChars 8 [d₁, d₂, d₃] 0 = b.toNat → Escaped b ['\\', d₁, d₂, d₃]

theorem isOctal_digitChar {n : Nat} (hn : n < 8) : isOctal n.digitChar := by
  have hall : ∀ n < 8, isOctal n.digitChar := by decide
  exact hall n hn

theorem toNat_digitChar {n : Nat} (hn : n < 8) : n.digitChar.toNat - '0'.toNat = n := by
  have hall : ∀ n < 8, n.digitChar.toNat - '0'.toNat = n := by decide
  exact hall n hn

theorem isPrintable_of_isOctal {c : Char} (hc : isOctal c) : isPrintable c := by
  simp only [isOctal, isPrintable, Bool.and_eq_true, decide_eq_true_eq] at hc ⊢
  exact ⟨Char.le_trans (by decide) hc.1, Char.le_trans hc.2 (by decide)⟩

theorem toNat_ofNat_byte (b : UInt8) : (Char.ofNat b.toNat).toNat = b.toNat := by
  have hvalid : b.toNat.isValidChar := Or.inl (Nat.lt_trans b.toNat_lt (by decide))
  rw [Char.ofNat, dif_pos hvalid]
  rfl

theorem escaped_octal {b : UInt8} (h0 : b ≠ 0) (hd : isOctalByte b = false) :
    Escaped b ("\\" ++ octal b).toList := by
  have hb := b.toNat_lt
  have hdigits : (octal b).toList = [Nat.digitChar (b.toNat / 64), Nat.digitChar (b.toNat / 8 % 8),
      Nat.digitChar (b.toNat % 8)] := String.toList_ofList
  rw [String.toList_append, hdigits]
  apply Escaped.octal h0 hd
  · simp only [List.forall_mem_cons, List.not_mem_nil, false_implies, implies_true, and_true]
    exact ⟨isOctal_digitChar (by omega), isOctal_digitChar (by omega), isOctal_digitChar (by omega)⟩
  · simp only [Nat.ofDigitChars, List.foldl_cons, List.foldl_nil]
    rw [toNat_digitChar (by omega), toNat_digitChar (by omega), toNat_digitChar (by omega)]
    omega

theorem escaped_printable {b : UInt8} (hlow : 0x20 ≤ b) (hhigh : b ≤ 0x7e) (hslash : b ≠ 0x5c)
    (hquote : b ≠ 0x22) : Escaped b (String.singleton (Char.ofNat b.toNat)).toList := by
  have hchar := toNat_ofNat_byte b
  rw [UInt8.le_iff_toNat_le] at hlow hhigh
  have hne : ∀ c : Char, b.toNat ≠ c.toNat → Char.ofNat b.toNat ≠ c := by
    rintro c hc rfl
    exact hc hchar.symm
  rw [String.toList_singleton]
  apply Escaped.plain
  · rintro rfl
    exact absurd hlow (by decide)
  · simp only [isPrintable, Bool.and_eq_true, decide_eq_true_eq, Char.le_def,
      UInt32.le_iff_toNat_le]
    change 32 ≤ (Char.ofNat b.toNat).toNat ∧ (Char.ofNat b.toNat).toNat ≤ 126
    rw [hchar]
    exact ⟨hlow, hhigh⟩
  · exact hne _ fun h => hquote (UInt8.toNat_inj.mp h)
  · exact hne _ fun h => hslash (UInt8.toNat_inj.mp h)
  · exact hchar

theorem escaped_escapeByte (b : UInt8) : Escaped b (escapeByte 0x22 b).toList := by
  by_cases hslash : b = 0x5c
  · subst hslash
    exact .mark (by decide) rfl rfl rfl rfl
  by_cases hline : b = 0x0a
  · subst hline
    exact .mark (by decide) rfl rfl rfl rfl
  by_cases htab : b = 0x09
  · subst htab
    exact .mark (by decide) rfl rfl rfl rfl
  by_cases hreturn : b = 0x0d
  · subst hreturn
    exact .mark (by decide) rfl rfl rfl rfl
  by_cases h0 : b = 0
  · subst h0
    exact .null
  by_cases hquote : b = 0x22
  · subst hquote
    exact .mark (by decide) rfl rfl rfl rfl
  simp only [escapeByte, hslash, hline, htab, hreturn, h0, hquote, if_false]
  split
  · next hrange =>
    simp only [Bool.and_eq_true, decide_eq_true_eq] at hrange
    exact escaped_printable hrange.1 hrange.2 hslash hquote
  · next hrange =>
    apply escaped_octal h0
    simp only [isOctalByte, Bool.and_eq_true, decide_eq_true_eq, Bool.and_eq_false_iff,
      decide_eq_false_iff_not, UInt8.le_iff_toNat_le] at hrange ⊢
    change ¬ (32 ≤ b.toNat ∧ b.toNat ≤ 126) at hrange
    change ¬ 48 ≤ b.toNat ∨ ¬ b.toNat ≤ 55
    omega

/-- The text between the quotes, byte by byte. -/
def body (bytes : List UInt8) : List Char := bytes.flatMap fun b => (escapeByte 0x22 b).toList

theorem toList_escape (bytes : List UInt8) : (escape 0x22 bytes).toList = body bytes := by
  rw [escape, String.toList_join, List.flatMap_map]
  rfl

theorem body_cons (b : UInt8) (bs : List UInt8) :
    body (b :: bs) = (escapeByte 0x22 b).toList ++ body bs := rfl

theorem body_printable {bytes : List UInt8} {c : Char} (hc : c ∈ body bytes) : isPrintable c := by
  obtain ⟨b, -, hc⟩ := List.mem_flatMap.mp hc
  have hesc := escaped_escapeByte b
  generalize (escapeByte 0x22 b).toList = text at hc hesc
  cases hesc with
  | null =>
    simp only [List.mem_cons, List.not_mem_nil, or_false] at hc
    rcases hc with rfl | rfl <;> decide
  | mark _ _ _ hd _ =>
    simp only [List.mem_cons, List.not_mem_nil, or_false] at hc
    rcases hc with rfl | rfl
    · decide
    · exact hd
  | plain _ hd _ _ _ =>
    obtain rfl := List.mem_singleton.mp hc
    exact hd
  | octal _ _ hall _ =>
    rcases List.mem_cons.mp hc with rfl | hc
    · decide
    · exact isPrintable_of_isOctal (hall c hc)

theorem isOctalByte_iff {b : UInt8} : isOctalByte b ↔ 48 ≤ b.toNat ∧ b.toNat ≤ 55 := by
  simp only [isOctalByte, Bool.and_eq_true, decide_eq_true_eq, UInt8.le_iff_toNat_le]
  rfl

theorem isOctal_iff {c : Char} : isOctal c ↔ 48 ≤ c.toNat ∧ c.toNat ≤ 55 := by
  simp only [isOctal, Bool.and_eq_true, decide_eq_true_eq, Char.le_def, UInt32.le_iff_toNat_le]
  rfl

theorem octal_lt_256 {cs : List Char} (hall : ∀ c ∈ cs, isOctal c) (hlength : cs.length ≤ 2) :
    Nat.ofDigitChars 8 ('0' :: cs) 0 < 256 := by
  have digit : ∀ c ∈ cs, c.toNat - 48 < 8 := by
    intro c hc
    have := isOctal_iff.mp (hall c hc)
    omega
  rcases cs with _ | ⟨c, _ | ⟨d, _ | ⟨e, cs⟩⟩⟩
  · decide
  · have hc := digit c (by simp)
    simp only [Nat.ofDigitChars, List.foldl_cons, List.foldl_nil, Char.reduceToNat]
    omega
  · have hc := digit c (by simp)
    have hd := digit d (by simp)
    simp only [Nat.ofDigitChars, List.foldl_cons, List.foldl_nil, Char.reduceToNat]
    omega
  · simp at hlength

theorem escapeByte_digit {b : UInt8} (hb : isOctalByte b) :
    ∃ c, isOctal c ∧ (escapeByte 0x22 b).toList = [c] := by
  have hesc := escaped_escapeByte b
  generalize (escapeByte 0x22 b).toList = text at hesc
  cases hesc with
  | null => exact absurd hb (by decide)
  | mark _ hno => exact absurd hb (by simp [hno])
  | octal _ hno => exact absurd hb (by simp [hno])
  | @plain _ c _ _ _ _ hc =>
    refine ⟨c, ?_, rfl⟩
    rw [isOctal_iff, hc]
    exact isOctalByte_iff.mp hb

/-- What stands for another byte does not start with an octal digit. -/
theorem body_ends {bs : List UInt8} (h : ∀ d ∈ bs.head?, isOctalByte d = false) :
    Ends (body bs) := by
  cases bs with
  | nil => exact nofun
  | cons b bs =>
    have hb : isOctalByte b = false := h b rfl
    rw [body_cons]
    have hesc := escaped_escapeByte b
    generalize (escapeByte 0x22 b).toList = text at hesc
    cases hesc with
    | null | mark | octal =>
      rintro c ⟨rfl⟩
      decide
    | plain _ _ _ _ hc =>
      rintro c ⟨rfl⟩
      rw [Bool.eq_false_iff, ne_eq, isOctal_iff, hc, ← isOctalByte_iff, hb]
      decide

/-- Somewhere a byte 0 comes right before the byte of an octal digit. -/
def HidesDigit (bytes : List UInt8) : Prop := ∃ d, isOctalByte d ∧ [0, d] <:+: bytes

theorem not_hidesDigit_nil : ¬ HidesDigit [] := by
  rintro ⟨d, -, h⟩
  simp at h

theorem hidesDigit_cons {b : UInt8} {bs : List UInt8} :
    HidesDigit (b :: bs) ↔ (b = 0 ∧ ∃ d ∈ bs.head?, isOctalByte d) ∨ HidesDigit bs := by
  simp only [HidesDigit, List.infix_cons_iff, List.cons_prefix_cons, and_or_left, exists_or]
  refine or_congr ?_ Iff.rfl
  cases bs with
  | nil => simp
  | cons e bs =>
    simp only [List.cons_prefix_cons, List.nil_prefix, and_true, List.head?_cons,
      Option.mem_some_iff]
    constructor
    · rintro ⟨d, hd, rfl, rfl⟩
      exact ⟨rfl, d, rfl, hd⟩
    · rintro ⟨rfl, d, rfl, hd⟩
      exact ⟨e, hd, rfl, rfl⟩

/-- The literal of some bytes is read as other bytes: as the same ones if no digit is hidden, and
as fewer if one is. -/
structure ReadAs (bytes out : List UInt8) : Prop where
  text : bytes? (body bytes) = some out
  same : ¬ HidesDigit bytes → out = bytes
  fewer : HidesDigit bytes → out.length < bytes.length

namespace ReadAs

variable {b d e : UInt8} {bs out : List UInt8}

theorem nil : ReadAs [] [] where
  text := by
    rw [body, List.flatMap_nil, bytes?.eq_def]
  same _ := rfl
  fewer h := absurd h not_hidesDigit_nil

theorem length_le (h : ReadAs bs out) : out.length ≤ bs.length := by
  by_cases hd : HidesDigit bs
  · exact Nat.le_of_lt (h.fewer hd)
  · rw [h.same hd]

theorem cons_of (h : ReadAs bs out) (hb : b = 0 → ∀ d ∈ bs.head?, isOctalByte d = false)
    (htext : bytes? (body (b :: bs)) = (bytes? (body bs)).map (b :: ·)) :
    ReadAs (b :: bs) (b :: out) := by
  have hiff : HidesDigit (b :: bs) ↔ HidesDigit bs := by
    rw [hidesDigit_cons, or_iff_right]
    rintro ⟨h0, d, hd, hoctal⟩
    rw [hb h0 d hd] at hoctal
    cases hoctal
  refine ⟨?_, fun hn => ?_, fun hh => ?_⟩
  · rw [htext, h.text]
    rfl
  · rw [h.same fun hh => hn (hiff.mpr hh)]
  · exact Nat.succ_lt_succ (h.fewer (hiff.mp hh))

/-- Every escape but that of 0 is complete. -/
theorem cons (h : ReadAs bs out) (hb : b ≠ 0) : ReadAs (b :: bs) (b :: out) := by
  refine h.cons_of (fun h0 => absurd h0 hb) ?_
  rw [body_cons]
  have hesc := escaped_escapeByte b
  generalize (escapeByte 0x22 b).toList = text at hesc
  cases hesc with
  | null => exact absurd rfl hb
  | mark _ _ hd _ hm => exact bytes?_mark hd hm _
  | plain _ hc hq hs heq =>
    rw [List.singleton_append, bytes?_printable hc hq hs, heq]
    simp
  | octal _ _ hall hvalue =>
    have hlt := b.toNat_lt
    refine (bytes?_octal _ hall (by simp) (by simp) (.inl rfl) (by omega)).trans ?_
    rw [hvalue]
    simp

/-- The escape of 0 is complete where no octal digit follows. -/
theorem null (h : ReadAs bs out) (hn : ∀ d ∈ bs.head?, isOctalByte d = false) :
    ReadAs (0 :: bs) (0 :: out) := by
  refine h.cons_of (fun _ => hn) ?_
  have hall : ∀ c ∈ ['0'], isOctal c := List.forall_mem_singleton.mpr (by decide)
  exact bytes?_octal ['0'] hall (by simp) (by simp) (.inr (body_ends hn)) (by decide)

/-- The escape of 0 takes in the digits that follow it, which are then missing. -/
theorem merged {ds : List UInt8} (h : ReadAs bs out) (hne : ds ≠ []) (hlength : ds.length ≤ 2)
    (hall : ∀ d ∈ ds, isOctalByte d)
    (hend : ds.length = 2 ∨ ∀ d ∈ bs.head?, isOctalByte d = false) :
    ∃ v, ReadAs (0 :: ds ++ bs) (v :: out) := by
  obtain ⟨cs, hcs, hoctal, hlen⟩ : ∃ cs : List Char, body (ds ++ bs) = cs ++ body bs ∧
      (∀ c ∈ cs, isOctal c) ∧ cs.length = ds.length := by
    clear hne hlength hend
    induction ds with
    | nil => exact ⟨[], rfl, nofun, rfl⟩
    | cons d ds ih =>
      obtain ⟨hd, hds⟩ := List.forall_mem_cons.mp hall
      obtain ⟨cs, hcs, hoctal, hlen⟩ := ih hds
      obtain ⟨c, hc, htext⟩ := escapeByte_digit hd
      refine ⟨c :: cs, ?_, List.forall_mem_cons.mpr ⟨hc, hoctal⟩, by simp [hlen]⟩
      rw [List.cons_append, body_cons, htext, hcs]
      rfl
  have hvalue : Nat.ofDigitChars 8 ('0' :: cs) 0 < 256 := octal_lt_256 hoctal (by omega)
  have hhides : HidesDigit (0 :: ds ++ bs) := by
    rw [List.cons_append, hidesDigit_cons]
    obtain ⟨d, ds, rfl⟩ := List.exists_cons_of_ne_nil hne
    exact .inl ⟨rfl, d, rfl, hall d (by simp)⟩
  refine ⟨(Nat.ofDigitChars 8 ('0' :: cs) 0).toUInt8, ?_, fun hn => absurd hhides hn, fun _ => ?_⟩
  · have hread := bytes?_octal ('0' :: cs) (List.forall_mem_cons.mpr ⟨by decide, hoctal⟩) (by simp)
      (by simp; omega) (hend.imp (by simp [hlen]) body_ends) hvalue
    rw [List.cons_append, body_cons, hcs]
    refine hread.trans ?_
    rw [h.text]
    rfl
  · have := h.length_le
    have := List.length_pos_of_ne_nil hne
    simp only [List.length_append, List.length_cons]
    omega

end ReadAs

theorem exists_digits (bs : List UInt8) : ∃ ds rest, bs = ds ++ rest ∧ ds.length ≤ 2 ∧
    (∀ d ∈ ds, isOctalByte d) ∧ (ds.length = 2 ∨ ∀ d ∈ rest.head?, isOctalByte d = false) := by
  have none_in_front : ∀ bs : List UInt8, (∀ d ∈ bs.head?, isOctalByte d = false) ∨
      ∃ d rest, bs = d :: rest ∧ isOctalByte d := by
    intro bs
    cases bs with
    | nil => exact .inl nofun
    | cons d rest =>
      cases hd : isOctalByte d with
      | false =>
        left
        rintro _ ⟨rfl⟩
        exact hd
      | true => exact .inr ⟨d, rest, rfl, hd⟩
  rcases none_in_front bs with h | ⟨d, bs, rfl, hd⟩
  · exact ⟨[], bs, rfl, by simp, nofun, .inr h⟩
  rcases none_in_front bs with h | ⟨e, bs, rfl, he⟩
  · exact ⟨[d], bs, rfl, by simp, by simpa using hd, .inr h⟩
  · exact ⟨[d, e], bs, rfl, by simp, by simpa using ⟨hd, he⟩, .inl rfl⟩

theorem exists_readAs (bs : List UInt8) : ∃ out, ReadAs bs out := by
  -- on the length, because the escape of 0 may take in more than one byte
  induction hn : bs.length using Nat.strong_induction_on generalizing bs with
  | h n ih =>
    cases bs with
    | nil => exact ⟨[], .nil⟩
    | cons b bs =>
      rw [List.length_cons] at hn
      by_cases hb : b = 0
      · subst hb
        obtain ⟨ds, rest, rfl, hlength, hall, hend⟩ := exists_digits bs
        obtain ⟨out, hout⟩ := ih rest.length (by simp at hn; omega) rest rfl
        by_cases hne : ds = []
        · subst hne
          exact ⟨_, hout.null (hend.resolve_left (by simp))⟩
        · obtain ⟨v, hv⟩ := hout.merged hne hlength hall hend
          exact ⟨_, hv⟩
      · obtain ⟨out, hout⟩ := ih bs.length (by omega) bs rfl
        exact ⟨_, hout.cons hb⟩

def utf8 (s : String) : List UInt8 := s.toUTF8.data.toList

theorem toList_string (s : String) : (string s).toList = '"' :: body (utf8 s) ++ ['"'] := by
  simp only [string, String.toList_append, toList_escape]
  rfl

theorem stringBytes?_string (s : String) : stringBytes? (string s) = bytes? (body (utf8 s)) := by
  rw [stringBytes?, toList_string, List.cons_append]
  simp only [List.getLast?_concat, if_true, List.dropLast_concat]

end Literal

/-- A string is rendered as a literal of printable characters that always has a reading. The reading
is the bytes of the string if and only if no byte 0 of it comes right before an octal digit. -/
theorem Renderer.rendered_string_denotes {g : Renderer} {id : NodeId} {value : String}
    (h : g.tree.get? id = some (.string value)) :
    ∃ text bytes, (∀ depth indent, g.renderTo (depth + 1) id indent = .ok text) ∧
      (∀ c ∈ text.toList, Literal.isPrintable c) ∧
      Literal.stringBytes? text = some bytes ∧
      (bytes = Literal.utf8 value ↔ ¬ Literal.HidesDigit (Literal.utf8 value)) := by
  obtain ⟨bytes, hread⟩ := Literal.exists_readAs (Literal.utf8 value)
  refine ⟨Literal.string value, bytes, fun depth indent => ?_, fun c hc => ?_, ?_, ?_⟩
  · have hnode : g.node id = .ok (.string value) := by
      simp [node, Tree.node_eq_ok.mpr h]
    rw [renderTo, hnode]
    rfl
  · rw [Literal.toList_string] at hc
    simp only [List.cons_append, List.mem_cons, List.mem_append, List.not_mem_nil, or_false] at hc
    rcases hc with rfl | hc | rfl
    · decide
    · exact Literal.body_printable hc
    · decide
  · rw [Literal.stringBytes?_string]
    exact hread.text
  · constructor
    · intro heq hhides
      have := hread.fewer hhides
      rw [heq] at this
      exact Nat.lt_irrefl _ this
    · exact hread.same

namespace Literal

/-- A byte 0 before a letter, a digit behind a mark, and every kind of escape. -/
def mixedText : String := "a\x00b\"\\\n\t\r7\x7fé"

theorem mixedText_denoted :
    ∃ text bytes,
      (Renderer.mk (.ofNodes [.string mixedText] 0) .builtin .empty).render 0 = .ok text ∧
      (∀ c ∈ text.toList, isPrintable c) ∧ stringBytes? text = some bytes ∧
      bytes = [0x61, 0, 0x62, 0x22, 0x5c, 0x0a, 0x09, 0x0d, 0x37, 0x7f, 0xc3, 0xa9] := by
  have hutf8 : utf8 mixedText =
      [0x61, 0, 0x62, 0x22, 0x5c, 0x0a, 0x09, 0x0d, 0x37, 0x7f, 0xc3, 0xa9] := by decide +kernel
  have hno : ¬ HidesDigit (utf8 mixedText) := by
    rw [hutf8]
    simp [hidesDigit_cons, not_hidesDigit_nil, isOctalByte]
  obtain ⟨text, bytes, hrender, hprintable, hread, hsame⟩ :=
    @Renderer.rendered_string_denotes ⟨.ofNodes [.string mixedText] 0, .builtin, .empty⟩ 0 mixedText
      (by decide +kernel)
  exact ⟨text, bytes, hrender _ 0, hprintable, hread, (hsame.mpr hno).trans hutf8⟩

/-- A byte 0 and the digit behind it are read as the one byte 1. -/
theorem digit_after_null_is_lost :
    (Renderer.mk (.ofNodes [.string "\x001"] 0) .builtin .empty).render 0 = .ok "\"\\01\"" ∧
    stringBytes? "\"\\01\"" = some [1] ∧ utf8 "\x001" = [0, 0x31] := by
  refine ⟨?_, by decide +kernel, by decide +kernel⟩
  with_unfolding_all rfl

end Literal
end Arbor
