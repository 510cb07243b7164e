import Mathlib

/-! Searching and replacing in strings, and strings with separators between them. -/
namespace ReadexPtf

/-- The first position from `pos` on at which the pattern starts. -/
def findFrom (pattern text : List Char) (pos : ℕ) : Option ℕ :=
  (List.range (text.length + 1)).find? fun i =>
    decide (pos ≤ i) && pattern.isPrefixOf (text.drop i)

/-- The next characters belong to a match, or a match is looked for. -/
def replaceSkip (pattern replacement : List Char) : ℕ → List Char → List Char
  | _, [] => []
  | skip + 1, _ :: cs => replaceSkip pattern replacement skip cs
  | 0, c :: cs =>
    if pattern.isPrefixOf (c :: cs) then
      replacement ++ replaceSkip pattern replacement (pattern.length - 1) cs
    else c :: replaceSkip pattern replacement 0 cs

/-- Every occurrence from the left is replaced. -/
def replaceAll (pattern replacement text : List Char) : List Char :=
  replaceSkip pattern replacement 0 text

/-- The parts of a string between the separators that are not empty. -/
def strtok (separator : Char) (text : String) : List String :=
  ((text.toList.splitOnP (· = separator)).filter (· ≠ [])).map String.ofList

section Intercalate
variable {α : Type*} {separator : String}

theorem intercalate_cons (x : String) (xs : List String) :
    separator.intercalate (x :: xs) = x ++ String.join (xs.map (separator ++ ·)) := by
  induction xs generalizing x with
  | nil => rw [String.intercalate_singleton, List.map_nil, String.join_nil, String.append_empty]
  | cons y ys ih =>
    rw [String.intercalate_cons_cons, ih, List.map_cons, String.join_cons, String.append_assoc,
      String.append_assoc]

/-- Strings of the same lengths, one by one, are the same if they are together. -/
theorem join_map_inj {f g : α → String} {xs : List α}
    (hlength : ∀ x ∈ xs, (f x).length = (g x).length)
    (h : String.join (xs.map f) = String.join (xs.map g)) : ∀ x ∈ xs, f x = g x := by
  induction xs with
  | nil => exact fun _ hx => absurd hx List.not_mem_nil
  | cons x xs ih =>
    rw [List.forall_mem_cons] at hlength ⊢
    rw [List.map_cons, List.map_cons, String.join_cons, String.join_cons, ← String.toList_inj,
      String.toList_append, String.toList_append] at h
    obtain ⟨hhead, htail⟩ := List.append_inj h
      (by rw [String.length_toList, String.length_toList, hlength.1])
    exact ⟨String.toList_inj.mp hhead, ih hlength.2 (String.toList_inj.mp htail)⟩

theorem length_join_map {f g : α → String} {xs : List α}
    (hlength : ∀ x ∈ xs, (f x).length = (g x).length) :
    (String.join (xs.map f)).length = (String.join (xs.map g)).length := by
  induction xs with
  | nil => rfl
  | cons x xs ih =>
    rw [List.forall_mem_cons] at hlength
    rw [List.map_cons, List.map_cons, String.join_cons, String.join_cons, String.length_append,
      String.length_append, hlength.1, ih hlength.2]

theorem length_intercalate_map {f g : α → String} {xs : List α}
    (hlength : ∀ x ∈ xs, (f x).length = (g x).length) :
    (separator.intercalate (xs.map f)).length = (separator.intercalate (xs.map g)).length := by
  cases xs with
  | nil => rfl
  | cons x xs =>
    rw [List.forall_mem_cons] at hlength
    rw [List.map_cons, List.map_cons, intercalate_cons, intercalate_cons, String.length_append,
      String.length_append, hlength.1, List.map_map, List.map_map]
    refine congrArg _ (length_join_map fun y hy => ?_)
    simp [hlength.2 y hy]

theorem intercalate_map_inj {f g : α → String} {xs : List α}
    (hlength : ∀ x ∈ xs, (f x).length = (g x).length)
    (h : separator.intercalate (xs.map f) = separator.intercalate (xs.map g)) :
    ∀ x ∈ xs, f x = g x := by
  cases xs with
  | nil => exact fun _ hx => absurd hx List.not_mem_nil
  | cons x xs =>
    rw [List.forall_mem_cons] at hlength ⊢
    rw [List.map_cons, List.map_cons, intercalate_cons, intercalate_cons, List.map_map,
      List.map_map, ← String.toList_inj, String.toList_append, String.toList_append] at h
    obtain ⟨hhead, htail⟩ := List.append_inj h
      (by rw [String.length_toList, String.length_toList, hlength.1])
    refine ⟨String.toList_inj.mp hhead, fun y hy => ?_⟩
    have hlater := join_map_inj (fun z hz => ?_) (String.toList_inj.mp htail) y hy
    · exact String.append_right_inj _ |>.mp hlater
    · simp [hlength.2 z hz]

/-- More strings are longer together. -/
theorem length_intercalate_append {xs ys : List String} (hxs : ∃ x ∈ xs, x ≠ "") :
    (separator.intercalate ys).length < (separator.intercalate (xs ++ ys)).length := by
  obtain ⟨x, hx, hne⟩ := hxs
  have hpositive : ∀ {xs : List String}, x ∈ xs → 0 < (separator.intercalate xs).length := by
    intro xs hx
    have hlength : 0 < x.length := Nat.pos_of_ne_zero fun h => hne (String.length_eq_zero_iff.mp h)
    induction xs with
    | nil => exact absurd hx List.not_mem_nil
    | cons y ys ih =>
      cases List.mem_cons.mp hx with
      | inl heq =>
        rw [intercalate_cons, String.length_append, ← heq]
        omega
      | inr hmem =>
        have hys := ih hmem
        cases ys with
        | nil => exact absurd hmem List.not_mem_nil
        | cons z zs =>
          rw [String.intercalate_cons_cons, String.length_append]
          omega
  by_cases hys : ys = []
  · rw [hys, List.append_nil]
    exact hpositive hx
  · rw [String.intercalate_append_of_ne_nil (List.ne_nil_of_mem hx) hys, String.length_append,
      String.length_append]
    have hfirst := hpositive hx
    omega

end Intercalate

section Parts
variable {α : Type*} {separator : α}

theorem mem_intercalate {c : α} {parts : List (List α)} (h : c ∈ [separator].intercalate parts) :
    c = separator ∨ ∃ part ∈ parts, c ∈ part := by
  induction parts with
  | nil => cases h
  | cons part parts ih =>
    cases parts with
    | nil => exact .inr ⟨part, List.mem_cons_self, by simpa using h⟩
    | cons next parts =>
      rw [List.intercalate_cons_cons, List.append_assoc, List.mem_append, List.singleton_append,
        List.mem_cons] at h
      rcases h with hfirst | hseparator | hlater
      · exact .inr ⟨part, List.mem_cons_self, hfirst⟩
      · exact .inl hseparator
      · exact (ih hlater).imp_right fun hin =>
          Exists.imp (fun _ hpart => ⟨List.mem_cons_of_mem part hpart.1, hpart.2⟩) hin

/-- Parts put behind each other one by one, each with a separator in front. -/
theorem foldl_separated (first : List α) (parts : List (List α)) :
    parts.foldl (fun text part => text ++ separator :: part) first =
      [separator].intercalate (first :: parts) := by
  induction parts generalizing first with
  | nil => simp
  | cons part parts ih =>
    rw [List.foldl_cons, ih, List.intercalate_cons_cons]
    cases parts with
    | nil => simp
    | cons next parts =>
      rw [List.intercalate_cons_cons, List.intercalate_cons_cons]
      simp

variable [DecidableEq α]

theorem notMem_of_mem_splitOn {text : List α} :
    ∀ {part : List α}, part ∈ text.splitOn separator → separator ∉ part := by
  induction text with
  | nil =>
    intro part h
    rw [List.splitOn_nil, List.mem_singleton] at h
    exact h ▸ List.not_mem_nil
  | cons c text ih =>
    intro part h
    rw [List.splitOn_cons_eq_if_modifyHead] at h
    split_ifs at h with hc
    · cases List.mem_cons.mp h with
      | inl heq => exact heq ▸ List.not_mem_nil
      | inr hin => exact ih hin
    · obtain ⟨first, rest, hsplit⟩ :=
        List.exists_cons_of_ne_nil (List.splitOn_ne_nil separator text)
      rw [hsplit, List.modifyHead_cons] at h
      cases List.mem_cons.mp h with
      | inl heq =>
        have hfirst := ih (hsplit ▸ List.mem_cons_self)
        rw [heq, List.mem_cons, not_or]
        exact ⟨fun hsame => hc (by rw [hsame, beq_self_eq_true]), hfirst⟩
      | inr hin => exact ih (hsplit ▸ List.mem_cons_of_mem first hin)

end Parts
end ReadexPtf
