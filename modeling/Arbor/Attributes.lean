/-!
Attributes of extension nodes: names with texts, ordered by name, each name once.

The order is part of the type, so two collections with the same entries are equal.
-/
namespace Arbor

def Ascending (entries : List (String × String)) : Prop := entries.Pairwise (·.1 < ·.1)

structure Attributes where
  entries : List (String × String)
  ascending : Ascending entries

namespace Attributes

instance : DecidableEq Attributes := fun a b =>
  decidable_of_decidable_of_iff (p := a.entries = b.entries) (by cases a; cases b; simp)

instance : Repr Attributes := ⟨fun a n => reprPrec a.entries n⟩

def empty : Attributes := ⟨[], .nil⟩

/-- Puts an entry at its place; an entry of the same name gives way. -/
def place (name text : String) : List (String × String) → List (String × String)
  | [] => [(name, text)]
  | (n, t) :: rest =>
    if name < n then (name, text) :: (n, t) :: rest
    else if name = n then (name, text) :: rest
    else (n, t) :: place name text rest

theorem mem_place {name text : String} {entries : List (String × String)} {e : String × String}
    (h : e ∈ place name text entries) : e = (name, text) ∨ e ∈ entries := by
  induction entries with
  | nil => simpa [place] using h
  | cons head rest ih =>
    obtain ⟨n, t⟩ := head
    unfold place at h
    split at h
    · simpa using h
    · split at h
      · rcases List.mem_cons.1 h with h | h
        · exact .inl h
        · exact .inr (List.mem_cons_of_mem _ h)
      · rcases List.mem_cons.1 h with h | h
        · exact .inr (h ▸ List.mem_cons_self)
        · rcases ih h with h | h
          · exact .inl h
          · exact .inr (List.mem_cons_of_mem _ h)

theorem place_ascending (name text : String) {entries : List (String × String)}
    (h : Ascending entries) : Ascending (place name text entries) := by
  induction entries with
  | nil => simp [place, Ascending]
  | cons head rest ih =>
    obtain ⟨n, t⟩ := head
    obtain ⟨first, others⟩ := List.pairwise_cons.1 h
    unfold place
    split
    · rename_i before
      refine List.pairwise_cons.2 ⟨fun e he => ?_, h⟩
      rcases List.mem_cons.1 he with rfl | he
      · exact before
      · exact String.lt_trans before (first e he)
    · split
      · rename_i same
        subst same
        exact List.pairwise_cons.2 ⟨fun e he => first e he, others⟩
      · rename_i notBefore notSame
        refine List.pairwise_cons.2 ⟨fun e he => ?_, ih others⟩
        rcases mem_place he with rfl | he
        · exact Classical.byContradiction fun notAfter =>
            notSame (String.le_antisymm (String.not_lt.1 notAfter) (String.not_lt.1 notBefore))
        · exact first e he

def insert (a : Attributes) (name text : String) : Attributes :=
  ⟨place name text a.entries, place_ascending name text a.ascending⟩

/-- The last entry of a name wins. -/
def ofList (entries : List (String × String)) : Attributes :=
  entries.foldl (fun a (name, text) => a.insert name text) empty

end Attributes
end Arbor
