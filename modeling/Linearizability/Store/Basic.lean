/-! # The state of a key-value store

A finite map from keys to values, kept as a list of entries with ascending keys, so that equal
maps are equal values.
-/

namespace Linearizability

namespace Store

/-- Bind a key in a list of entries with ascending keys. -/
def bind (key value : String) : List (String × String) → List (String × String)
  | [] => [(key, value)]
  | entry :: rest =>
    if key < entry.1 then (key, value) :: entry :: rest
    else if key = entry.1 then (key, value) :: rest
    else entry :: bind key value rest

/-- Remove the binding of a key. -/
def unbind (key : String) (entries : List (String × String)) : List (String × String) :=
  entries.filter (fun entry => entry.1 != key)

theorem mem_bind {key value : String} {entries : List (String × String)}
    {entry : String × String} (h : entry ∈ bind key value entries) :
    entry = (key, value) ∨ entry ∈ entries := by
  induction entries with
  | nil => simpa [bind] using h
  | cons e rest ih =>
    simp only [bind] at h
    split at h
    · simpa using h
    · split at h
      · rcases List.mem_cons.mp h with h | h
        · exact .inl h
        · exact .inr (List.mem_cons_of_mem _ h)
      · rcases List.mem_cons.mp h with h | h
        · exact .inr (h ▸ List.mem_cons_self)
        · exact (ih h).imp id (List.mem_cons_of_mem _)

theorem pairwise_bind {key value : String} {entries : List (String × String)}
    (h : entries.Pairwise (fun a b => a.1 < b.1)) :
    (bind key value entries).Pairwise (fun a b => a.1 < b.1) := by
  induction entries with
  | nil => simp [bind]
  | cons e rest ih =>
    rw [List.pairwise_cons] at h
    simp only [bind]
    split
    · rename_i hlt
      refine .cons (fun b hb => ?_) (.cons h.1 h.2)
      rcases List.mem_cons.mp hb with rfl | hb
      · exact hlt
      · exact String.lt_trans hlt (h.1 b hb)
    · split
      · rename_i _ heq
        exact .cons (fun b hb => heq ▸ h.1 b hb) h.2
      · rename_i hlt hne
        refine .cons (fun b hb => ?_) (ih h.2)
        rcases mem_bind hb with rfl | hb
        · exact Std.lt_of_le_of_ne (String.not_lt.mp hlt) (Ne.symm hne)
        · exact h.1 b hb

end Store

structure Store where
  entries : List (String × String)
  ascending : entries.Pairwise (fun a b => a.1 < b.1)
  deriving DecidableEq

namespace Store

def empty : Store := ⟨[], .nil⟩

/-- The value of a key. -/
def get? (store : Store) (key : String) : Option String := store.entries.lookup key

def insert (store : Store) (key value : String) : Store :=
  ⟨bind key value store.entries, pairwise_bind store.ascending⟩

def erase (store : Store) (key : String) : Store :=
  ⟨unbind key store.entries, store.ascending.filter _⟩

end Store

end Linearizability
