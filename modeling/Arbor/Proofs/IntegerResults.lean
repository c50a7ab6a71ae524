import Arbor.Proofs.ArgumentPassing

/-!
Integers come back from a call as they went in.

A value is passed as a word of 64 bits, whatever its type, and a function is bound to leave only as
many bits of its result as its type has; the rest of the register may hold anything. Reading the
result cuts these bits off and extends what is left with the sign or with zeros, as the type has it,
which is the word that was passed for every value in the range of the type.
-/
namespace Arbor

/-- How many bits of a register an integer or a pointer takes. -/
def CType.bits : CType → Nat
  | .scalar .char | .scalar .uchar => 8
  | .scalar .short | .scalar .ushort => 16
  | .scalar .int | .scalar .uint => 32
  | _ => 64

/-- The values of the integer types and of pointers, in the form in which calls give them back. -/
inductive Value.Inhabits : Value → CType → Prop where
  | char (v : UInt8) : Inhabits (.char v) (.scalar .char)
  | uchar (v : UInt8) : Inhabits (.char v) (.scalar .uchar)
  | short {v : Int64} : -32768 ≤ v.toInt → v.toInt ≤ 32767 → Inhabits (.int v) (.scalar .short)
  | ushort {v : Int64} : 0 ≤ v.toInt → v.toInt ≤ 65535 → Inhabits (.int v) (.scalar .ushort)
  | int {v : Int64} : -2147483648 ≤ v.toInt → v.toInt ≤ 2147483647 →
      Inhabits (.int v) (.scalar .int)
  | uint {v : UInt64} : v.toNat ≤ 4294967295 → Inhabits (.uint v) (.scalar .uint)
  | long (v : Int64) : Inhabits (.int v) (.scalar .long)
  | ulong (v : UInt64) : Inhabits (.uint v) (.scalar .ulong)
  | pointer (v : UInt64) (base : CType) : Inhabits (.uint v) (.pointer base)

/-- Two registers agree on their lowest bits. -/
def AgreeBelow (n : Nat) (a b : Int64) : Prop :=
  ∀ i < n, a.toBitVec.getLsbD i = b.toBitVec.getLsbD i

instance (n : Nat) (a b : Int64) : Decidable (AgreeBelow n a b) :=
  inferInstanceAs (Decidable (∀ i < n, _ = _))

section Words

variable {n : Nat} {a b : Int64}

theorem AgreeBelow.setWidth_eq (h : AgreeBelow n a b) :
    a.toBitVec.setWidth n = b.toBitVec.setWidth n := by
  ext i hi
  simpa [BitVec.getElem_setWidth] using h i hi

theorem AgreeBelow.eq (h : AgreeBelow 64 a b) : a = b := by
  have hlow := h.setWidth_eq
  simp only [BitVec.setWidth_eq] at hlow
  exact Int64.toBitVec_inj.mp hlow

theorem AgreeBelow.signExtend_eq (h : AgreeBelow n a b) (hn : n ≤ 64) :
    a.toBitVec.signExtend n = b.toBitVec.signExtend n := by
  rw [BitVec.signExtend_eq_setWidth_of_le _ hn, BitVec.signExtend_eq_setWidth_of_le _ hn]
  exact h.setWidth_eq

/-- Cut to fewer bits and extended with its sign again, a word has its value modulo the size it was
cut to, which is the value itself in the range of that size. -/
theorem signExtended_eq_of_range {size : Nat} (h : b.toInt = a.toInt.bmod size)
    (hlow : -size ≤ 2 * a.toInt) (hhigh : 2 * a.toInt < size) : b = a := by
  apply Int64.toInt_inj.mp
  rw [h]
  exact Int.bmod_eq_of_le (by omega) (by omega)

theorem toUInt16_toInt64_of_range (hlow : 0 ≤ a.toInt) (hhigh : a.toInt ≤ 65535) :
    a.toUInt64.toUInt16.toUInt64.toInt64 = a := by
  have hpos : 0 ≤ a := Int64.le_iff_toInt_le.mpr hlow
  have hword : a.toUInt64.toNat = a.toNatClampNeg := Int64.toNat_toUInt64_of_le hpos
  have hint : a.toInt = a.toNatClampNeg := Int64.toInt_eq_toNatClampNeg hpos
  have hcut : a.toUInt64.toUInt16.toUInt64 = a.toUInt64 := by
    apply UInt64.toNat_inj.mp
    rw [UInt16.toNat_toUInt64, UInt64.toNat_toUInt16]
    omega
  rw [hcut, Int64.toInt64_toUInt64]

theorem toInt_ofUInt16 (v : UInt16) : v.toUInt64.toInt64.toInt = v.toNat := by
  have hlt := v.toNat_lt
  have hnat : v.toUInt64.toBitVec.toNat = v.toNat := UInt16.toNat_toUInt64 v
  rw [← Int64.toInt_toBitVec, UInt64.toBitVec_toInt64, BitVec.toInt_eq_toNat_of_lt (by omega), hnat]

theorem toUInt32_toUInt64_of_range {v : UInt64} (h : v.toNat ≤ 4294967295) :
    v.toUInt32.toUInt64 = v := by
  apply UInt64.toNat_inj.mp
  rw [UInt32.toNat_toUInt64, UInt64.toNat_toUInt32]
  omega

end Words

namespace Callable

variable {ty : CType} {value : Value} {word raw : Int64}

theorem narrow_eq_of_agree (hty : ty.registerClass? = some .integer)
    (h : AgreeBelow ty.bits raw word) : narrow raw ty = narrow word ty := by
  cases ty with
  | pointer base =>
    obtain rfl := AgreeBelow.eq h
    rfl
  | function result params => cases hty
  | scalar s =>
    cases s with
    | void | float | double | longDouble => cases hty
    | long | ulong =>
      obtain rfl := AgreeBelow.eq h
      rfl
    | char | uchar =>
      have hbyte : raw.toUInt64.toUInt8 = word.toUInt64.toUInt8 :=
        UInt8.toBitVec_inj.mp (AgreeBelow.setWidth_eq h)
      simp only [narrow, hbyte]
    | short =>
      have hhalf : raw.toInt16 = word.toInt16 :=
        Int16.toBitVec_inj.mp (AgreeBelow.signExtend_eq h (by decide))
      simp only [narrow, hhalf]
    | ushort =>
      have hhalf : raw.toUInt64.toUInt16 = word.toUInt64.toUInt16 :=
        UInt16.toBitVec_inj.mp (AgreeBelow.setWidth_eq h)
      simp only [narrow, hhalf]
    | int =>
      have hhalf : raw.toInt32 = word.toInt32 :=
        Int32.toBitVec_inj.mp (AgreeBelow.signExtend_eq h (by decide))
      simp only [narrow, hhalf]
    | uint =>
      have hhalf : raw.toUInt64.toUInt32 = word.toUInt64.toUInt32 :=
        UInt32.toBitVec_inj.mp (AgreeBelow.setWidth_eq h)
      simp only [narrow, hhalf]

theorem narrow_passed (h : value.Inhabits ty) :
    ∃ word, value.toInt64? = some word ∧ narrow word ty = value := by
  cases h with
  | char v | uchar v =>
    refine ⟨_, rfl, congrArg Value.char ?_⟩
    apply UInt8.toNat_inj.mp
    simp
  | @short v hlow hhigh =>
    have hcut := (Int16.toInt_toInt64 v.toInt16).trans (Int64.toInt_toInt16 v)
    exact ⟨v, rfl, congrArg Value.int (signExtended_eq_of_range hcut (by omega) (by omega))⟩
  | ushort hlow hhigh => exact ⟨_, rfl, congrArg Value.int (toUInt16_toInt64_of_range hlow hhigh)⟩
  | @int v hlow hhigh =>
    have hcut := (Int32.toInt_toInt64 v.toInt32).trans (Int64.toInt_toInt32 v)
    exact ⟨v, rfl, congrArg Value.int (signExtended_eq_of_range hcut (by omega) (by omega))⟩
  | uint hhigh => exact ⟨_, rfl, congrArg Value.uint (toUInt32_toUInt64_of_range hhigh)⟩
  | long v => exact ⟨v, rfl, rfl⟩
  | ulong v | pointer v => exact ⟨v.toInt64, rfl, rfl⟩

theorem narrow_inhabits (hty : ty.registerClass? = some .integer) (raw : Int64) :
    (narrow raw ty).Inhabits ty := by
  cases ty with
  | pointer base => exact .pointer _ base
  | function result params => cases hty
  | scalar s =>
    cases s with
    | void | float | double | longDouble => cases hty
    | char => exact .char _
    | uchar => exact .uchar _
    | long => exact .long _
    | ulong => exact .ulong _
    | short =>
      have hlow := raw.toInt16.le_toInt
      have hhigh := raw.toInt16.toInt_lt
      refine .short ?_ ?_ <;> rw [Int16.toInt_toInt64] <;> omega
    | int =>
      have hlow := raw.toInt32.le_toInt
      have hhigh := raw.toInt32.toInt_lt
      refine .int ?_ ?_ <;> rw [Int32.toInt_toInt64] <;> omega
    | ushort =>
      have hhigh := raw.toUInt64.toUInt16.toNat_lt
      refine .ushort ?_ ?_ <;> rw [toInt_ofUInt16] <;> omega
    | uint =>
      have hhigh := raw.toUInt64.toUInt32.toNat_lt
      refine .uint ?_
      rw [UInt32.toNat_toUInt64]
      omega

end Callable

namespace Value

variable {ty : CType} {value : Value}

theorem Inhabits.registerClass? (h : value.Inhabits ty) : ty.registerClass? = some .integer := by
  cases h <;> rfl

theorem inhabits_iff :
    value.Inhabits ty ↔
      ty.registerClass? = some .integer ∧ ∃ raw, Callable.narrow raw ty = value := by
  constructor
  · intro h
    obtain ⟨word, -, hword⟩ := Callable.narrow_passed h
    exact ⟨h.registerClass?, word, hword⟩
  · rintro ⟨hty, raw, rfl⟩
    exact Callable.narrow_inhabits hty raw

end Value

namespace Registers

theorem int_foldl (r : Registers) {xs : List Operand} {i : Nat} {v : Int64}
    (h : xs[i]? = some (.word v)) :
    (xs.foldl push r).int
      (r.ints.length + ((xs.take i).map Operand.registerClass).countP (· = .integer)) = v := by
  induction xs generalizing r i with
  | nil => cases h
  | cons x xs ih =>
    cases i with
    | zero =>
      obtain rfl : x = .word v := by simpa using h
      exact (extends_foldl (r.push (.word v)) xs).int_eq (l := r.ints) rfl
    | succ i =>
      have hrest := ih (r.push x) (i := i) h
      cases x with
      | word w =>
        simpa [push, Operand.registerClass, Nat.add_assoc, Nat.add_comm 1] using hrest
      | double w => simpa [push, Operand.registerClass] using hrest
      | single w => simpa [push, Operand.registerClass] using hrest

end Registers

namespace Callable

variable {c : Callable} {args : List Value} {value : Value} {ty : CType} {i : Nat}

def integerRegister (c : Callable) (i : Nat) : Nat :=
  (c.params.take i).countP (·.registerClass? = some .integer)

theorem integerRegister_eq {cs : List RegisterClass} (h : classes c.params = .ok cs) (i : Nat) :
    c.integerRegister i = (cs.take i).countP (· = .integer) := by
  have htake := congrArg (List.take i) (classes_ok h)
  rw [← List.map_take, ← List.map_take] at htake
  calc c.integerRegister i
      = ((c.params.take i).map CType.registerClass?).countP (· = some .integer) := by
        rw [List.countP_map]
        rfl
    _ = ((cs.take i).map some).countP (· = some .integer) := by rw [htake]
    _ = (cs.take i).countP (· = .integer) := by
        rw [List.countP_map]
        congr 1
        funext k
        simp

theorem of?_word (hv : value.Inhabits ty) {word : Int64} (hw : value.toInt64? = some word) :
    Operand.of? value ty = some (.word word) := by
  simp only [Operand.of?, hv.registerClass?, hw, Option.map_some]

theorem resultValue_integer (hty : ty.registerClass? = some .integer) (r : Returned) :
    resultValue ty r = some (narrow r.int ty) := by
  have hvoid : ty.isVoid = false := by
    cases hb : ty.isVoid with
    | false => rfl
    | true =>
      rw [CType.isVoid, decide_eq_true_eq] at hb
      rw [hb] at hty
      cases hty
  simp [resultValue, hvoid, hty]

/-- A function that leaves the lowest bits of a parameter of its own result type gives back the
argument. -/
theorem call_gives_back {name : String} {function : NativeFunction} {signature : CType}
    (hc : ofType name function signature = .ok c) (hl : args.length = c.params.length)
    (hall : ∀ a ∈ args.zip c.params, (Operand.of? a.1 a.2).isSome)
    (hvalue : args[i]? = some value) (hparam : c.params[i]? = some c.result)
    (hv : value.Inhabits c.result)
    (hleft : ∀ r, AgreeBelow c.result.bits (c.function r).int (r.int (c.integerRegister i))) :
    c.call args = .ok (some value) := by
  obtain ⟨-, cs, hfits⟩ := fits_of_ofType hc
  obtain ⟨word, hword, hread⟩ := narrow_passed hv
  rcases converted_or_first (args.zip c.params) with ⟨xs, hxs⟩ | ⟨j, other, ty, hfirst⟩
  · let r := xs.foldl Registers.push ⟨[], []⟩
    have hoperand : xs[i]? = some (.word word) := by
      have hi : (args.zip c.params)[i]? = some (value, c.result) :=
        List.getElem?_zip_eq_some.mpr ⟨hvalue, hparam⟩
      have hat := congrArg (·[i]?) hxs
      simp only [List.getElem?_map, hi, Option.map_some, of?_word hv hword] at hat
      obtain ⟨x, hx, hxw⟩ := Option.map_eq_some_iff.mp hat.symm
      rw [hx, Option.some.inj hxw]
    have hregister : r.int (c.integerRegister i) = word := by
      rw [integerRegister_eq hfits.classes_eq, hfits.classes_of_converted hl hxs, ← List.map_take]
      simpa using Registers.int_foldl ⟨[], []⟩ hoperand
    have hagree := hleft r
    rw [hregister] at hagree
    rw [call_of_marshal hl (marshal_converted hxs), resultValue_integer hv.registerClass?,
      narrow_eq_of_agree hv.registerClass? hagree, hread]
  · have hsome := hall _ (List.mem_of_getElem? hfirst.here)
    simp [hfirst.fails] at hsome

theorem ofType_unary (hty : ty.registerClass? = some .integer) (name : String)
    (function : NativeFunction) :
    ofType name function (.function ty [ty]) = .ok ⟨name, function, ty, [ty]⟩ := by
  have hclasses : classes [ty] = .ok [.integer] := by
    simp only [classes, hty]
    rfl
  have hresult : checkResult ty = .ok () := by
    simp [checkResult, hty]
  simp only [ofType, hclasses, hresult]
  rfl

/-- A value of an integer type or of a pointer is passed as a word. A register that agrees with
this word on the bits of the type, and holds anything above them, reads as the same value. So a
function that gives back its parameter, in these bits, gives back the argument, alone or beside
other arguments. -/
theorem integer_comes_back {value : Value} {ty : CType} (hv : value.Inhabits ty) :
    ∃ word, value.toInt64? = some word ∧
      (∀ raw, AgreeBelow ty.bits raw word → narrow raw ty = value) ∧
      (∀ name function, (∀ r, AgreeBelow ty.bits (function r).int (r.int 0)) →
        ∃ c, ofType name function (.function ty [ty]) = .ok c ∧
          c.call [value] = .ok (some value)) ∧
      (∀ name function signature c, ofType name function signature = .ok c → c.result = ty →
        ∀ args i, args.length = c.params.length →
          (∀ a ∈ args.zip c.params, (Operand.of? a.1 a.2).isSome) →
          args[i]? = some value → c.params[i]? = some ty →
          (∀ r, AgreeBelow ty.bits (c.function r).int (r.int (c.integerRegister i))) →
          c.call args = .ok (some value)) := by
  have hty := hv.registerClass?
  obtain ⟨word, hword, hread⟩ := narrow_passed hv
  refine ⟨word, hword, ?_, ?_, ?_⟩
  · intro raw hagree
    rw [narrow_eq_of_agree hty hagree, hread]
  · intro name function hleft
    have hc := ofType_unary hty name function
    refine ⟨_, hc, call_gives_back (i := 0) hc rfl ?_ rfl rfl hv hleft⟩
    intro a ha
    obtain rfl : a = (value, ty) := by simpa using ha
    simp [of?_word hv hword]
  · rintro name function signature c hc rfl args i hl hall hvalue hparam hleft
    exact call_gives_back hc hl hall hvalue hparam hv hleft

def picking : CType :=
  .function (.scalar .short) [.pointer (.scalar .char), .scalar .float, .scalar .short]

/-- Gives the second integer register with all bits above the lowest sixteen turned over. -/
def pickSecond : NativeFunction := fun r => ⟨r.int 1 ^^^ -65536, .zero⟩

/-- The sign of a short is taken from its own highest bit, not from the register's. -/
theorem negative_short_comes_back :
    (Value.int (-5)).Inhabits (.scalar .short) ∧
    narrow 0x12345678ABCDFFFB (.scalar .short) = .int (-5) ∧
    ∃ c, ofType "f" pickSecond picking = .ok c ∧
      c.call [.uint 7, .double .zero, .int (-5)] = .ok (some (.int (-5))) := by
  have hv : (Value.int (-5)).Inhabits (.scalar .short) := .short (by decide) (by decide)
  have hc : ofType "f" pickSecond picking = .ok ⟨"f", pickSecond, .scalar .short,
    [.pointer (.scalar .char), .scalar .float, .scalar .short]⟩ := rfl
  have hleft : ∀ r, AgreeBelow 16 (pickSecond r).int (r.int 1) := by
    intro r i hi
    have hkept : ∀ i < 16, (-65536 : Int64).toBitVec.getLsbD i = false := by decide
    rw [pickSecond, Int64.toBitVec_xor, BitVec.getLsbD_xor, hkept i hi, Bool.xor_false]
  obtain ⟨word, hword, hread, -, hcall⟩ := integer_comes_back hv
  obtain rfl : (-5 : Int64) = word := Option.some.inj hword
  refine ⟨hv, hread _ (by decide), _, hc, ?_⟩
  exact hcall _ _ _ _ hc rfl _ 2 rfl (by decide) rfl rfl hleft

end Callable
end Arbor
