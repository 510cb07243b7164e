import Mathlib

/-! Lists in which a new element gets the place behind all others: the elements in the order of
their first occurrences. -/
namespace ReadexPtf
variable {α κ : Type*} [BEq κ] [LawfulBEq κ] {l : List κ} {k : κ}

theorem eraseDups_concat_of_mem (hk : k ∈ l) : (l ++ [k]).eraseDups = l.eraseDups := by
  rw [List.eraseDups_append]
  simp [List.removeAll, hk]

theorem eraseDups_concat_of_notMem (hk : k ∉ l) :
    (l ++ [k]).eraseDups = l.eraseDups ++ [k] := by
  rw [List.eraseDups_append]
  simp [List.removeAll, hk, List.eraseDups_cons]

theorem nodup_eraseDups (l : List κ) : l.eraseDups.Nodup := by
  induction l using List.reverseRecOn with
  | nil => exact List.nodup_nil
  | append_singleton l k ih =>
    by_cases hk : k ∈ l
    · rwa [eraseDups_concat_of_mem hk]
    · rw [eraseDups_concat_of_notMem hk]
      refine List.nodup_append.mpr ⟨ih, List.nodup_singleton k, fun k' hk' k'' hk'' heq => ?_⟩
      rw [List.mem_singleton.mp hk''] at heq
      exact hk (heq ▸ List.mem_eraseDups.mp hk')

/-- More elements leave those that have a place where they are. -/
theorem isPrefix_eraseDups (l l' : List κ) : l.eraseDups <+: (l ++ l').eraseDups := by
  rw [List.eraseDups_append]
  exact List.prefix_append _ _

section Search
variable [DecidableEq κ] {l : List α} {key : α → κ}

/-- The search for a key that there is finds its place. -/
theorem findIdx?_of_mem (hk : k ∈ l.map key) :
    (l.findIdx? fun a => key a = k) = some ((l.map key).idxOf k) := by
  induction l with
  | nil => cases hk
  | cons a l ih =>
    rw [List.findIdx?_cons, List.map_cons, List.idxOf_cons]
    by_cases ha : key a = k
    · simp [ha]
    · rw [List.map_cons, List.mem_cons] at hk
      rw [ih (hk.resolve_left (Ne.symm ha)), beq_eq_false_iff_ne.mpr ha]
      simp [ha]

omit [BEq κ] [LawfulBEq κ] in
theorem findIdx?_of_notMem (hk : k ∉ l.map key) : (l.findIdx? fun a => key a = k) = none := by
  rw [List.findIdx?_eq_none_iff]
  intro a ha
  simp only [decide_eq_false_iff_not]
  exact fun heq => hk (heq ▸ List.mem_map_of_mem ha)

end Search
end ReadexPtf
