/-!
Small tables of keys and values, in the order the keys came first.

`get?` is the view: every operation is described by what it does to `get?`.
-/
namespace Arbor

abbrev Table (α β : Type) := List (α × β)

namespace Table

variable {α β : Type} [DecidableEq α]

def get? : Table α β → α → Option β
  | [], _ => none
  | (k, v) :: rest, key => if k = key then some v else get? rest key

def contains (t : Table α β) (key : α) : Bool := (get? t key).isSome

/-- Replaces the value of a key, or adds the key at the end. -/
def set : Table α β → α → β → Table α β
  | [], key, value => [(key, value)]
  | (k, v) :: rest, key, value =>
    if k = key then (k, value) :: rest else (k, v) :: set rest key value

def setAll (t : Table α β) (entries : List (α × β)) : Table α β :=
  entries.foldl (fun t e => t.set e.1 e.2) t

def erase : Table α β → α → Table α β
  | [], _ => []
  | (k, v) :: rest, key => if k = key then erase rest key else (k, v) :: erase rest key

def keys (t : Table α β) : List α := t.map Prod.fst

@[simp] theorem get?_nil (key : α) : get? ([] : Table α β) key = none := rfl

@[simp] theorem get?_set_same (t : Table α β) (key : α) (value : β) :
    get? (set t key value) key = some value := by
  induction t with
  | nil => simp [set, get?]
  | cons entry rest ih =>
    obtain ⟨k, v⟩ := entry
    by_cases h : k = key <;> simp [set, get?, h, ih]

theorem get?_set_other (t : Table α β) {key other : α} (value : β) (h : other ≠ key) :
    get? (set t key value) other = get? t other := by
  induction t with
  | nil => simp [set, get?, Ne.symm h]
  | cons entry rest ih =>
    obtain ⟨k, v⟩ := entry
    by_cases hk : k = key
    · simp [set, get?, hk, Ne.symm h]
    · simp [set, get?, hk, ih]

theorem contains_set (t : Table α β) (key other : α) (value : β) :
    (t.set key value).contains other ↔ t.contains other ∨ other = key := by
  unfold contains
  by_cases h : other = key
  · subst h
    simp
  · simp [get?_set_other t value h, h]

theorem get?_append (s t : Table α β) (key : α) :
    get? (s ++ t) key = (get? s key).or (get? t key) := by
  induction s with
  | nil => rfl
  | cons entry rest ih =>
    obtain ⟨k, v⟩ := entry
    by_cases h : k = key <;> simp [get?, h, ih]

theorem get?_setAll (t : Table α β) (entries : List (α × β)) (key : α) :
    get? (t.setAll entries) key = (get? entries.reverse key).or (get? t key) := by
  induction entries generalizing t with
  | nil => rfl
  | cons entry rest ih =>
    obtain ⟨k, v⟩ := entry
    have hset : get? (t.set k v) key = (get? [(k, v)] key).or (get? t key) := by
      by_cases h : k = key
      · simp [get?, h]
      · simp [get?, h, get?_set_other t v (Ne.symm h)]
    rw [List.reverse_cons, get?_append, Option.or_assoc, ← hset]
    exact ih (t.set k v)

@[simp] theorem get?_erase_same (t : Table α β) (key : α) : get? (erase t key) key = none := by
  induction t with
  | nil => rfl
  | cons entry rest ih =>
    obtain ⟨k, v⟩ := entry
    by_cases h : k = key <;> simp [erase, get?, h, ih]

theorem get?_erase_other (t : Table α β) {key other : α} (h : other ≠ key) :
    get? (erase t key) other = get? t other := by
  induction t with
  | nil => rfl
  | cons entry rest ih =>
    obtain ⟨k, v⟩ := entry
    by_cases hk : k = key
    · simp [erase, get?, hk, ih, Ne.symm h]
    · simp [erase, get?, hk, ih]

end Table
end Arbor
