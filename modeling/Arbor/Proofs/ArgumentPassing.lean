import Arbor.Link.Call
import Arbor.Proofs.Sequences

/-!
Arguments reach the registers that the callee reads.

Caller and callee agree on no table of registers: each counts, over its own list, how many integer
and how many floating registers are in use. The caller fills the next register of a class, the
callee takes its next parameter of a class from there, and since a callable is made only if both
counts fit, neither count leaves its register file. A value that does not convert stops the caller
at its index, before anything is called.
-/
namespace Arbor

inductive Operand where
  | word (v : Int64)
  | double (v : Binary64)
  | single (v : Binary32)
  deriving DecidableEq, Repr

namespace Operand

def registerClass : Operand → RegisterClass
  | .word _ => .integer
  | .double _ => .double
  | .single _ => .single

def of? (value : Value) (ty : CType) : Option Operand :=
  match ty.registerClass? with
  | none => none
  | some .integer => value.toInt64?.map .word
  | some .double => (Callable.floating? value).map .double
  | some .single => (Callable.floating? value).map fun v => .single v.narrow

theorem registerClass?_of? {value : Value} {ty : CType} {x : Operand} (h : of? value ty = some x) :
    ty.registerClass? = some x.registerClass := by
  unfold of? at h
  cases hc : ty.registerClass? with
  | none => simp [hc] at h
  | some c =>
    cases c <;>
    · simp only [hc, Option.map_eq_some_iff] at h
      obtain ⟨_, -, rfl⟩ := h
      rfl

end Operand

namespace Registers

/-- Puts an operand into the next register of its kind. A single takes the low half. -/
def push (r : Registers) : Operand → Registers
  | .word v => { r with ints := r.ints ++ [v] }
  | .double v => { r with floats := r.floats ++ [v] }
  | .single v => { r with floats := r.floats ++ [Callable.lowHalf v] }

/-- What a function takes for its parameters when `ints` integer registers and `floats` floating
ones are taken already: every parameter comes from the next register of its kind. -/
def received (r : Registers) : (ints floats : Nat) → List RegisterClass → List Operand
  | _, _, [] => []
  | ints, floats, .integer :: rest => .word (r.int ints) :: r.received (ints + 1) floats rest
  | ints, floats, .double :: rest => .double (r.float floats) :: r.received ints (floats + 1) rest
  | ints, floats, .single :: rest =>
    .single ⟨(r.float floats).bits.toUInt32⟩ :: r.received ints (floats + 1) rest

structure Extends (r r' : Registers) : Prop where
  ints : r.ints <+: r'.ints
  floats : r.floats <+: r'.floats

variable {r r' : Registers}

theorem extends_push (r : Registers) (x : Operand) : Extends r (r.push x) := by
  cases x with
  | word v => exact ⟨List.prefix_append .., List.prefix_rfl⟩
  | double v => exact ⟨List.prefix_rfl, List.prefix_append ..⟩
  | single v => exact ⟨List.prefix_rfl, List.prefix_append ..⟩

theorem extends_foldl (r : Registers) (xs : List Operand) : Extends r (xs.foldl push r) := by
  induction xs generalizing r with
  | nil => exact ⟨List.prefix_rfl, List.prefix_rfl⟩
  | cons x xs ih =>
    have hnext := extends_push r x
    have hrest := ih (r.push x)
    exact ⟨hnext.ints.trans hrest.ints, hnext.floats.trans hrest.floats⟩

theorem Extends.int_eq {l : List Int64} {v : Int64} (h : Extends r r')
    (hr : r.ints = l ++ [v]) : r'.int l.length = v := by
  obtain ⟨more, hmore⟩ := h.ints
  rw [int, ← hmore, hr]
  simp

theorem Extends.float_eq {l : List Binary64} {v : Binary64} (h : Extends r r')
    (hr : r.floats = l ++ [v]) : r'.float l.length = v := by
  obtain ⟨more, hmore⟩ := h.floats
  rw [float, ← hmore, hr]
  simp

theorem low_lowHalf (v : Binary32) : (⟨(Callable.lowHalf v).bits.toUInt32⟩ : Binary32) = v := by
  simp [Callable.lowHalf]

/-- The callee's counts start where the caller's do, so they meet at every parameter. -/
theorem received_foldl (r : Registers) (xs : List Operand) :
    (xs.foldl push r).received r.ints.length r.floats.length (xs.map Operand.registerClass) =
      xs := by
  induction xs generalizing r with
  | nil => rfl
  | cons x xs ih =>
    have hrest := ih (r.push x)
    have hkept := extends_foldl (r.push x) xs
    cases x with
    | word v =>
      have hread := hkept.int_eq (l := r.ints) (v := v) rfl
      simp only [push, List.length_append, List.length_singleton] at hrest hread
      simp only [List.foldl_cons, List.map_cons, Operand.registerClass, received, push, hread,
        hrest]
    | double v =>
      have hread := hkept.float_eq (l := r.floats) (v := v) rfl
      simp only [push, List.length_append, List.length_singleton] at hrest hread
      simp only [List.foldl_cons, List.map_cons, Operand.registerClass, received, push, hread,
        hrest]
    | single v =>
      have hread := hkept.float_eq (l := r.floats) (v := Callable.lowHalf v) rfl
      simp only [push, List.length_append, List.length_singleton] at hrest hread
      simp only [List.foldl_cons, List.map_cons, Operand.registerClass, received, push, hread,
        hrest, low_lowHalf]

theorem lengths_foldl (r : Registers) (xs : List Operand) :
    (xs.foldl push r).ints.length =
      r.ints.length + (xs.map Operand.registerClass).countP (· = .integer) ∧
    (xs.foldl push r).ints.length + (xs.foldl push r).floats.length =
      r.ints.length + r.floats.length + xs.length := by
  induction xs generalizing r with
  | nil => simp
  | cons x xs ih =>
    obtain ⟨hints, hall⟩ := ih (r.push x)
    rw [List.foldl_cons, hall, hints]
    cases x <;> simp [push, Operand.registerClass] <;> omega

end Registers

namespace Callable

variable {index i : Nat} {value : Value} {ty : CType} {r : Registers} {x : Operand}
  {rest passed : List (Value × CType)}

theorem marshal_push (h : Operand.of? value ty = some x) :
    marshal index ((value, ty) :: rest) r = marshal (index + 1) rest (r.push x) := by
  unfold Operand.of? at h
  cases hc : ty.registerClass? with
  | none => simp [hc] at h
  | some c =>
    cases c <;>
    · simp only [hc, Option.map_eq_some_iff] at h
      obtain ⟨v, hv, rfl⟩ := h
      simp [marshal, hc, hv, Registers.push]

theorem marshal_stop (hc : ty.registerClass?.isSome) (h : Operand.of? value ty = none) :
    marshal index ((value, ty) :: rest) r = .error (.unconvertible index value ty) := by
  obtain ⟨c, hc⟩ := Option.isSome_iff_exists.mp hc
  unfold Operand.of? at h
  cases c <;> simp_all [marshal]

/-- The first argument that does not convert. -/
structure FirstUnconverted (passed : List (Value × CType)) (i : Nat) (value : Value) (ty : CType) :
    Prop where
  here : passed[i]? = some (value, ty)
  fails : Operand.of? value ty = none
  before : ∀ j < i, ∀ a, passed[j]? = some a → (Operand.of? a.1 a.2).isSome

theorem FirstUnconverted.cons {a : Value × CType} (ha : (Operand.of? a.1 a.2).isSome)
    (h : FirstUnconverted passed i value ty) : FirstUnconverted (a :: passed) (i + 1) value ty := by
  refine ⟨h.here, h.fails, fun j hj b hb => ?_⟩
  cases j with
  | zero =>
    obtain rfl : a = b := by simpa using hb
    exact ha
  | succ j => exact h.before j (by omega) b hb

theorem converted_or_first (passed : List (Value × CType)) :
    (∃ xs : List Operand, passed.map (fun a => Operand.of? a.1 a.2) = xs.map some) ∨
      ∃ i value ty, FirstUnconverted passed i value ty := by
  induction passed with
  | nil => exact Or.inl ⟨[], rfl⟩
  | cons a passed ih =>
    cases ha : Operand.of? a.1 a.2 with
    | none => exact Or.inr ⟨0, a.1, a.2, rfl, ha, fun j hj => absurd hj (Nat.not_lt_zero j)⟩
    | some x =>
      rcases ih with ⟨xs, hxs⟩ | ⟨i, value, ty, hfirst⟩
      · exact Or.inl ⟨x :: xs, by simp [ha, hxs]⟩
      · exact Or.inr ⟨i + 1, value, ty, hfirst.cons (by simp [ha])⟩

theorem marshal_converted {xs : List Operand}
    (h : passed.map (fun a => Operand.of? a.1 a.2) = xs.map some) :
    marshal index passed r = .ok (xs.foldl Registers.push r) := by
  induction passed generalizing index r xs with
  | nil =>
    obtain rfl : xs = [] := by simpa using h.symm
    rfl
  | cons a passed ih =>
    cases xs with
    | nil => simp at h
    | cons x xs =>
      simp only [List.map_cons, List.cons.injEq] at h
      rw [marshal_push h.1, ih h.2, List.foldl_cons]

theorem marshal_unconverted (hc : ∀ a ∈ passed, a.2.registerClass?.isSome)
    (h : FirstUnconverted passed i value ty) :
    marshal index passed r = .error (.unconvertible (index + i) value ty) := by
  induction passed generalizing index i r with
  | nil => cases h.here
  | cons a passed ih =>
    obtain ⟨ha, hc⟩ := List.forall_mem_cons.mp hc
    cases i with
    | zero =>
      obtain rfl : a = (value, ty) := by simpa using h.here
      exact marshal_stop ha h.fails
    | succ i =>
      obtain ⟨x, hx⟩ := Option.isSome_iff_exists.mp (h.before 0 (Nat.succ_pos i) a rfl)
      have hrest : FirstUnconverted passed i value ty :=
        ⟨h.here, h.fails, fun j hj b hb => h.before (j + 1) (by omega) b hb⟩
      rw [marshal_push hx, ih hc hrest, Nat.succ_add_eq_add_succ]

theorem classes_ok {params : List CType} {cs : List RegisterClass} (h : classes params = .ok cs) :
    params.map CType.registerClass? = cs.map some := by
  induction params generalizing cs with
  | nil =>
    cases h
    rfl
  | cons ty rest ih =>
    unfold classes at h
    cases hc : ty.registerClass? with
    | none => simp [hc] at h
    | some c =>
      simp only [hc] at h
      obtain ⟨others, hothers, h⟩ := bind_eq_ok.mp h
      cases h
      simp [hc, ih hothers]

/-- A callable has a class for each parameter, and room for all of them. -/
structure Fits (c : Callable) (cs : List RegisterClass) : Prop where
  classes_eq : classes c.params = .ok cs
  ints : cs.countP (· = .integer) ≤ Registers.intCount
  floats : cs.length - cs.countP (· = .integer) ≤ Registers.floatCount

theorem fits_of_ofType {name : String} {function : NativeFunction} {c : Callable}
    (h : ofType name function ty = .ok c) : c.name = name ∧ ∃ cs, c.Fits cs := by
  unfold ofType at h
  split at h
  · obtain ⟨cs, hcs, h⟩ := bind_eq_ok.mp h
    dsimp only at h
    split at h
    · cases h
    · next hints =>
      split at h
      · cases h
      · next hfloats =>
        obtain ⟨-, h⟩ := seq_eq_ok.mp h
        cases h
        exact ⟨rfl, cs, hcs, by omega, by omega⟩
  · cases h

variable {c : Callable} {args : List Value}

theorem call_of_marshal (hl : args.length = c.params.length)
    (h : marshal 0 (args.zip c.params) ⟨[], []⟩ = .ok r) :
    c.call args = .ok (resultValue c.result (c.function r)) := by
  rw [call, if_neg (not_not_intro hl), h]
  rfl

theorem call_of_marshal_error {e : CallError} (hl : args.length = c.params.length)
    (h : marshal 0 (args.zip c.params) ⟨[], []⟩ = .error e) : c.call args = .error e := by
  rw [call, if_neg (not_not_intro hl), h]
  rfl

theorem call_arity (hl : args.length ≠ c.params.length) :
    c.call args = .error (.arityMismatch c.name c.params.length args.length) := by
  rw [call, if_pos hl]

theorem classes_of_operands {xs : List Operand}
    (h : passed.map (fun a => Operand.of? a.1 a.2) = xs.map some) :
    passed.map (fun a => a.2.registerClass?) = (xs.map Operand.registerClass).map some := by
  induction passed generalizing xs with
  | nil =>
    obtain rfl : xs = [] := by simpa using h.symm
    rfl
  | cons a passed ih =>
    cases xs with
    | nil => simp at h
    | cons x xs =>
      simp only [List.map_cons, List.cons.injEq] at h
      simp [Operand.registerClass?_of? h.1, ih h.2]

namespace Fits

variable {cs : List RegisterClass} (hfits : c.Fits cs)

include hfits

theorem supported (args : List Value) :
    ∀ a ∈ args.zip c.params, a.2.registerClass?.isSome := by
  intro a ha
  have hmem : a.2.registerClass? ∈ cs.map some :=
    classes_ok hfits.classes_eq ▸ List.mem_map_of_mem (List.of_mem_zip ha).2
  obtain ⟨_, -, hclass⟩ := List.mem_map.mp hmem
  simp [← hclass]

theorem classes_of_converted {xs : List Operand} (hl : args.length = c.params.length)
    (h : (args.zip c.params).map (fun a => Operand.of? a.1 a.2) = xs.map some) :
    cs = xs.map Operand.registerClass := by
  have hparams : c.params.map CType.registerClass? =
      (args.zip c.params).map fun a => a.2.registerClass? := by
    conv => lhs; rw [← List.map_snd_zip (Nat.le_of_eq hl.symm)]
    simp
  have hsome := (classes_ok hfits.classes_eq).symm.trans (hparams.trans (classes_of_operands h))
  exact List.map_inj_right (fun _ _ he => Option.some.inj he) |>.mp hsome

end Fits

theorem Fits.call_converted {cs : List RegisterClass} {xs : List Operand} (hfits : c.Fits cs)
    (hl : args.length = c.params.length)
    (h : (args.zip c.params).map (fun a => Operand.of? a.1 a.2) = xs.map some) :
    ∃ r, (∀ f, call { c with function := f } args = .ok (resultValue c.result (f r))) ∧
      r.ints.length ≤ Registers.intCount ∧ r.floats.length ≤ Registers.floatCount ∧
      r.received 0 0 cs = xs := by
  obtain rfl := hfits.classes_of_converted hl h
  obtain ⟨-, hints, hfloats⟩ := hfits
  obtain ⟨hcount, hall⟩ := Registers.lengths_foldl ⟨[], []⟩ xs
  simp only [List.length_nil, List.length_map, Nat.zero_add] at hcount hall hfloats
  refine ⟨xs.foldl Registers.push ⟨[], []⟩, fun f => ?_, ?_, ?_, ?_⟩
  · exact call_of_marshal (c := { c with function := f }) hl (marshal_converted h)
  · omega
  · omega
  · exact Registers.received_foldl ⟨[], []⟩ xs

theorem Fits.call_unconverted {cs : List RegisterClass} {value : Value} {ty : CType}
    (hfits : c.Fits cs) (hl : args.length = c.params.length)
    (h : FirstUnconverted (args.zip c.params) i value ty) :
    c.call args = .error (.unconvertible i value ty) := by
  refine call_of_marshal_error hl ?_
  rw [marshal_unconverted (hfits.supported args) h, Nat.zero_add]

theorem Fits.called_or_refused {cs : List RegisterClass} (hfits : c.Fits cs)
    (hl : args.length = c.params.length) :
    (∃ value, c.call args = .ok value) ∨
      ∃ i value ty, FirstUnconverted (args.zip c.params) i value ty ∧
        c.call args = .error (.unconvertible i value ty) := by
  rcases converted_or_first (args.zip c.params) with ⟨xs, hxs⟩ | ⟨i, value, ty, hfirst⟩
  · obtain ⟨r, hcall, -⟩ := hfits.call_converted hl hxs
    exact Or.inl ⟨_, hcall c.function⟩
  · exact Or.inr ⟨i, value, ty, hfirst, hfits.call_unconverted hl hfirst⟩

/-- A callable made from a function type refuses arguments for their number exactly if there are
not as many as parameters. Of as many it refuses the first that does not convert. If all convert,
the function is called, with no register out of range, and taking its parameters from the registers,
each from the next one of its kind, it gets what the argument at the same position converts to. -/
theorem arguments_reach_parameters {name : String} {function : NativeFunction} {ty : CType}
    {c : Callable} (h : ofType name function ty = .ok c) (args : List Value) :
    ((∃ n expected got, c.call args = .error (.arityMismatch n expected got)) ↔
      args.length ≠ c.params.length) ∧
    (args.length ≠ c.params.length →
      c.call args = .error (.arityMismatch name c.params.length args.length)) ∧
    (args.length = c.params.length →
      (∀ i value ty, c.call args = .error (.unconvertible i value ty) ↔
        FirstUnconverted (args.zip c.params) i value ty) ∧
      ((∀ a ∈ args.zip c.params, (Operand.of? a.1 a.2).isSome) →
        ∃ cs r, classes c.params = .ok cs ∧
          (∀ f, call { c with function := f } args = .ok (resultValue c.result (f r))) ∧
          r.ints.length ≤ Registers.intCount ∧ r.floats.length ≤ Registers.floatCount ∧
          (r.received 0 0 cs).map some =
            (args.zip c.params).map fun a => Operand.of? a.1 a.2)) := by
  obtain ⟨rfl, cs, hfits⟩ := fits_of_ofType h
  refine ⟨⟨?_, fun hl => ⟨_, _, _, call_arity hl⟩⟩, call_arity,
    fun hl => ⟨fun i value ty => ?_, ?_⟩⟩
  · rintro ⟨n, expected, got, hcall⟩ hl
    rcases hfits.called_or_refused hl with ⟨_, hok⟩ | ⟨_, _, _, -, herror⟩
    · cases hok.symm.trans hcall
    · cases herror.symm.trans hcall
  · refine ⟨fun hcall => ?_, hfits.call_unconverted hl⟩
    rcases hfits.called_or_refused hl with ⟨_, hok⟩ | ⟨_, _, _, hfirst, herror⟩
    · cases hok.symm.trans hcall
    · cases herror.symm.trans hcall
      exact hfirst
  · intro hall
    rcases converted_or_first (args.zip c.params) with ⟨xs, hxs⟩ | ⟨i, value, ty, hfirst⟩
    · obtain ⟨r, hcall, hints, hfloats, hread⟩ := hfits.call_converted hl hxs
      exact ⟨cs, r, hfits.classes_eq, hcall, hints, hfloats, by rw [hread, hxs]⟩
    · have hsome := hall _ (List.mem_of_getElem? hfirst.here)
      simp [hfirst.fails] at hsome

/-- `double f(char *, float, long, double)`. -/
def mixed : CType :=
  .function (.scalar .double)
    [.pointer (.scalar .char), .scalar .float, .scalar .long, .scalar .double]

def secondFloat : NativeFunction := fun r => ⟨0, r.float 1⟩

/-- The two files are counted on their own: the third and the fourth parameter are the second of
their kinds. -/
theorem mixed_parameters_reached :
    ∃ c, ofType "f" secondFloat mixed = .ok c ∧
      c.call [.uint 7, .double .nan, .int 5] = .error (.arityMismatch "f" 4 3) ∧
      c.call [.uint 7, .bool true, .double .zero, .double .infinity] =
        .error (.unconvertible 1 (.bool true) (.scalar .float)) ∧
      ∃ cs, ∃ r : Registers, classes c.params = .ok cs ∧
        c.call [.uint 7, .double .nan, .char 65, .double .infinity] =
          .ok (some (.double (r.float 1))) ∧
        r.received 0 0 cs =
          [.word 7, .single (Binary64.narrow .nan), .word 65, .double .infinity] := by
  have hc : ofType "f" secondFloat mixed = .ok ⟨"f", secondFloat, .scalar .double,
    [.pointer (.scalar .char), .scalar .float, .scalar .long, .scalar .double]⟩ := rfl
  refine ⟨_, hc, ?_, ?_, ?_⟩
  · exact (arguments_reach_parameters hc _).2.1 (by decide)
  · refine (((arguments_reach_parameters hc _).2.2 rfl).1 1 _ _).mpr ⟨rfl, rfl, ?_⟩
    intro j hj a ha
    obtain rfl : j = 0 := by omega
    obtain rfl := Option.some.inj ha
    rfl
  · obtain ⟨cs, r, hcs, hcall, -, -, hread⟩ :=
      ((arguments_reach_parameters hc [.uint 7, .double .nan, .char 65, .double .infinity]).2.2
        rfl).2 (by decide)
    refine ⟨cs, r, hcs, hcall secondFloat, ?_⟩
    exact List.map_inj_right (fun _ _ he => Option.some.inj he) |>.mp hread

end Callable
end Arbor
