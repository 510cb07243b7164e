import ReadexPtf.Lib.Traversal

/-! Unordered containers: a set together with the order in which it is iterated, and the
keys of a hash table, where a key is compared with those of equal hash only. -/
namespace ReadexPtf
variable {α : Type*}

/-- `std::unordered_set`: distinct elements in their iteration order. -/
structure UnorderedSet (α : Type*) where
  elems : List α
  nodup : elems.Nodup

namespace UnorderedSet

def empty : UnorderedSet α := ⟨[], .nil⟩

instance [DecidableEq α] : DecidableEq (UnorderedSet α) := fun s s' =>
  decidable_of_iff (s.elems = s'.elems) (by cases s; cases s'; simp)

/-- `operator==`: as many elements, and each is found in the other set. -/
def equal [DecidableEq α] (s s' : UnorderedSet α) : Bool :=
  s.elems.length = s'.elems.length ∧ ∀ a ∈ s.elems, a ∈ s'.elems

theorem equal_iff_perm [DecidableEq α] {s s' : UnorderedSet α} :
    s.equal s' = true ↔ s.elems.Perm s'.elems := by
  rw [equal, decide_eq_true_eq]
  constructor
  · intro ⟨hlen, hsub⟩
    exact (List.subperm_of_subset s.nodup hsub).perm_of_length_le hlen.ge
  · exact fun h => ⟨h.length_eq, fun a ha => h.mem_iff.mp ha⟩

theorem equal_iff_mem [DecidableEq α] {s s' : UnorderedSet α} :
    s.equal s' = true ↔ ∀ a, a ∈ s.elems ↔ a ∈ s'.elems := by
  rw [equal_iff_perm, List.perm_ext_iff_of_nodup s.nodup s'.nodup]

/-- `insert`: the new element may turn up anywhere, and the others may move. -/
def insert [DecidableEq α] (π : Traversal α) (s : UnorderedSet α) (a : α) : UnorderedSet α :=
  if h : a ∈ s.elems then s
  else ⟨π.order (s.elems ++ [a]), (π.perm _).nodup_iff.mpr
    (List.Nodup.append s.nodup (List.nodup_singleton a) (List.disjoint_singleton.mpr h))⟩

theorem mem_insert [DecidableEq α] {π : Traversal α} {s : UnorderedSet α} {a b : α} :
    b ∈ (s.insert π a).elems ↔ b ∈ s.elems ∨ b = a := by
  rw [insert]
  split_ifs with h
  · refine ⟨.inl, fun hb => ?_⟩
    cases hb with
    | inl hb => exact hb
    | inr heq => exact heq ▸ h
  · rw [Traversal.mem_order, List.mem_append, List.mem_singleton]

/-- The set after the elements of `l` were inserted one by one. -/
def insertAll [DecidableEq α] (π : Traversal α) (s : UnorderedSet α) (l : List α) :
    UnorderedSet α :=
  l.foldl (insert π) s

theorem mem_insertAll [DecidableEq α] {π : Traversal α} {l : List α} {a : α} :
    ∀ {s : UnorderedSet α}, a ∈ (s.insertAll π l).elems ↔ a ∈ s.elems ∨ a ∈ l := by
  induction l with
  | nil => simp [insertAll]
  | cons b l ih =>
    intro s
    rw [insertAll, List.foldl_cons, ← insertAll, ih, mem_insert, List.mem_cons, or_assoc]

/-- A set whose elements are inserted anew is equal to the old one. -/
theorem equal_insertAll [DecidableEq α] (π : Traversal α) (s : UnorderedSet α) :
    (empty.insertAll π s.elems).equal s = true := by
  apply equal_iff_mem.mpr
  intro a
  simp [mem_insertAll, empty]

end UnorderedSet

/-- Finding by a key that no two elements share. -/
theorem find?_key_eq_some {κ : Type*} [DecidableEq κ] {key : α → κ} {l : List α}
    (hnodup : (l.map key).Nodup) {k : κ} {a : α} :
    l.find? (fun b => key b = k) = some a ↔ a ∈ l ∧ key a = k := by
  constructor
  · exact fun h => ⟨List.mem_of_find?_eq_some h, by simpa using List.find?_some h⟩
  · intro ⟨ha, hk⟩
    cases hfind : l.find? (fun b => key b = k) with
    | none => exact absurd (decide_eq_true hk) (List.find?_eq_none.mp hfind a ha)
    | some b =>
      have hb : key b = k := by simpa using List.find?_some hfind
      have hsame : b = a := List.inj_on_of_nodup_map hnodup (List.mem_of_find?_eq_some hfind) ha
        (hb.trans hk.symm)
      exact congrArg some hsame

section HashTable
variable (hash : α → UInt64) (eq : α → α → Bool)

/-- The keys after one more insertion into a hash table. -/
def insertKey (keys : List α) (k : α) : List α :=
  if keys.any fun k' => hash k' = hash k && eq k' k then keys else keys ++ [k]

/-- The keys of a table after insertions. -/
def insertKeys (ks : List α) : List α := ks.foldl (insertKey hash eq) []

variable {hash eq}

/-- Where equal keys have equal hashes, no table holds two equal keys. -/
theorem pairwise_insertKeys {K : Set α}
    (hlaw : ∀ a ∈ K, ∀ b ∈ K, eq a b = true → hash a = hash b) {ks : List α}
    (hks : ∀ k ∈ ks, k ∈ K) : (insertKeys hash eq ks).Pairwise fun a b => ¬ eq a b = true := by
  have hfold : ∀ (ks keys : List α), (∀ k ∈ ks, k ∈ K) → (∀ k ∈ keys, k ∈ K) →
      keys.Pairwise (fun a b => ¬ eq a b = true) →
      (ks.foldl (insertKey hash eq) keys).Pairwise fun a b => ¬ eq a b = true := by
    intro ks
    induction ks with
    | nil => exact fun _ _ _ h => h
    | cons k ks ih =>
      intro keys hks hkeys hpair
      obtain ⟨hk, hks⟩ := List.forall_mem_cons.mp hks
      rw [List.foldl_cons, insertKey]
      split_ifs with hfound
      · exact ih keys hks hkeys hpair
      · apply ih _ hks
        · intro k' hk'
          cases List.mem_append.mp hk' with
          | inl hold => exact hkeys k' hold
          | inr hnew => exact (List.mem_singleton.mp hnew) ▸ hk
        · apply List.pairwise_append.mpr
          refine ⟨hpair, List.pairwise_singleton _ k, fun k' hk' k'' hk'' heq => hfound ?_⟩
          have hsame : k'' = k := List.mem_singleton.mp hk''
          rw [hsame] at heq
          apply List.any_eq_true.mpr
          exact ⟨k', hk', by simp [hlaw k' (hkeys k' hk') k hk heq, heq]⟩
  exact hfold ks [] hks (by simp) .nil

end HashTable

section FirstOfKey
variable {κ : Type*} (hash : κ → UInt64) (eq : κ → κ → Bool) (key : α → κ)

/-- The elements after one more, which is kept if a hash table of the keys does not find its key. -/
def keepNew (kept : List α) (a : α) : List α :=
  if (kept.map key).any fun k => hash k = hash (key a) && eq k (key a) then kept else kept ++ [a]

/-- Of every key of `l` there is exactly one element in `kept`, the first one of `l`. -/
def KeepsFirsts (l kept : List α) : Prop :=
  ∀ a ∈ l, ∃ first, l.find? (fun b => eq (key b) (key a)) = some first ∧
    kept.filter (fun b => eq (key b) (key a)) = [first]

variable {hash eq key}

theorem mem_keepNew {kept : List α} {a b : α} (h : b ∈ keepNew hash eq key kept a) :
    b ∈ kept ∨ b = a := by
  rw [keepNew] at h
  split_ifs at h
  · exact .inl h
  · exact (List.mem_append.mp h).imp_right List.mem_singleton.mp

theorem mem_foldl_keepNew {l : List α} : ∀ {kept : List α} {b : α},
    b ∈ l.foldl (keepNew hash eq key) kept → b ∈ kept ∨ b ∈ l := by
  induction l with
  | nil => exact fun h => .inl h
  | cons a l ih =>
    intro kept b h
    cases ih h with
    | inl h =>
      cases mem_keepNew h with
      | inl h => exact .inl h
      | inr h => exact .inr (h ▸ List.mem_cons_self)
    | inr h => exact .inr (List.mem_cons_of_mem a h)

theorem subset_keepNew (kept : List α) (a : α) : kept ⊆ keepNew hash eq key kept a := by
  rw [keepNew]
  split_ifs
  · exact List.Subset.refl kept
  · exact List.subset_append_left kept [a]

theorem subset_foldl_keepNew (l kept : List α) : kept ⊆ l.foldl (keepNew hash eq key) kept := by
  induction l generalizing kept with
  | nil => exact List.Subset.refl kept
  | cons a l ih => exact List.Subset.trans (subset_keepNew kept a) (ih _)

/-- An element of the same hash and key is kept for every one. -/
theorem exists_mem_foldl_keepNew (hrefl : ∀ k, eq k k = true) {l : List α} :
    ∀ (kept : List α), ∀ a ∈ l, ∃ b ∈ l.foldl (keepNew hash eq key) kept,
      hash (key b) = hash (key a) ∧ eq (key b) (key a) = true := by
  induction l with
  | nil => simp
  | cons c l ih =>
    intro kept a ha
    cases List.mem_cons.mp ha with
    | inr ha => exact ih _ a ha
    | inl hself =>
      subst hself
      have hnow : ∃ b ∈ keepNew hash eq key kept a,
          hash (key b) = hash (key a) ∧ eq (key b) (key a) = true := by
        rw [keepNew]
        split_ifs with hfound
        · simpa using hfound
        · exact ⟨a, List.mem_append_right kept List.mem_cons_self, rfl, hrefl _⟩
      obtain ⟨b, hb, hsame⟩ := hnow
      exact ⟨b, subset_foldl_keepNew l _ hb, hsame⟩

/-- Where equal keys have equal hashes, what is kept of a key is what was there or the first. -/
theorem filter_foldl_keepNew (hsymm : ∀ k k', eq k k' = true → eq k' k = true)
    (htrans : ∀ k k' k'', eq k k' = true → eq k' k'' = true → eq k k'' = true) (c : κ)
    {l : List α} : ∀ {kept : List α},
    (∀ a ∈ kept ++ l, ∀ b ∈ kept ++ l, eq (key a) (key b) = true → hash (key a) = hash (key b)) →
    (l.foldl (keepNew hash eq key) kept).filter (fun b => eq (key b) c) =
      if kept.filter (fun b => eq (key b) c) = [] then
        (l.find? fun b => eq (key b) c).toList
      else kept.filter fun b => eq (key b) c := by
  induction l with
  | nil =>
    intro kept _
    split_ifs with hnone
    · simpa using hnone
    · rfl
  | cons a l ih =>
    intro kept hlaw
    have hlaw' : ∀ x ∈ keepNew hash eq key kept a ++ l, ∀ y ∈ keepNew hash eq key kept a ++ l,
        eq (key x) (key y) = true → hash (key x) = hash (key y) := by
      have hsub : ∀ x ∈ keepNew hash eq key kept a ++ l, x ∈ kept ++ a :: l := by
        intro x hx
        simp only [List.mem_append, List.mem_cons] at hx ⊢
        cases hx with
        | inl hx => exact (mem_keepNew hx).imp_right .inl
        | inr hx => exact .inr (.inr hx)
      exact fun x hx y hy => hlaw x (hsub x hx) y (hsub y hy)
    rw [List.foldl_cons, ih hlaw']
    by_cases hc : eq (key a) c = true
    · have hfind : (a :: l).find? (fun b => eq (key b) c) = some a := by simp [hc]
      rw [hfind, keepNew]
      split_ifs with hfound hnone hnone
      -- a key that is found is one of those kept of the class
      · obtain ⟨b, hb, -, heq⟩ : ∃ b ∈ kept, hash (key b) = hash (key a) ∧
            eq (key b) (key a) = true := by simpa using hfound
        have hb' : b ∈ kept.filter fun b => eq (key b) c :=
          List.mem_filter.mpr ⟨hb, htrans _ _ _ heq hc⟩
        rw [hnone] at hb'
        cases hb'
      · rfl
      · simp [List.filter_append, hc] at hnone
      · simp [List.filter_append, hc] at hnone
      · rename_i hold
        simp [List.filter_append, hc, hold]
      -- a key of the class would have been found, as it has the same hash
      · rename_i hold
        exfalso
        obtain ⟨b, hb⟩ := List.exists_mem_of_ne_nil _ hold
        have heq : eq (key b) (key a) = true :=
          htrans _ _ _ (List.mem_filter.mp hb).2 (hsymm _ _ hc)
        have hkept : b ∈ kept := (List.mem_filter.mp hb).1
        have hhash : hash (key b) = hash (key a) :=
          hlaw b (List.mem_append_left _ hkept) a (List.mem_append_right _ List.mem_cons_self) heq
        apply hfound
        simpa using ⟨b, hkept, hhash, heq⟩
    · have hfind : (a :: l).find? (fun b => eq (key b) c) = l.find? fun b => eq (key b) c := by
        simp [hc]
      have hsame : (keepNew hash eq key kept a).filter (fun b => eq (key b) c) =
          kept.filter fun b => eq (key b) c := by
        rw [keepNew]
        split_ifs
        · rfl
        · simp [List.filter_append, hc]
      rw [hfind, hsame]

/-- Of every key the first element alone is kept exactly where equal keys have equal hashes. -/
theorem keepsFirsts_iff (hrefl : ∀ k, eq k k = true)
    (hsymm : ∀ k k', eq k k' = true → eq k' k = true)
    (htrans : ∀ k k' k'', eq k k' = true → eq k' k'' = true → eq k k'' = true) {l : List α} :
    KeepsFirsts eq key l (l.foldl (keepNew hash eq key) []) ↔
      ∀ a ∈ l, ∀ b ∈ l, eq (key a) (key b) = true → hash (key a) = hash (key b) := by
  constructor
  · intro h a ha b hb heq
    obtain ⟨first, -, hfilter⟩ := h b hb
    have hfirst : ∀ c ∈ l.foldl (keepNew hash eq key) [],
        eq (key c) (key b) = true → c = first := by
      intro c hc heqc
      have : c ∈ [first] := hfilter ▸ List.mem_filter.mpr ⟨hc, heqc⟩
      exact List.mem_singleton.mp this
    obtain ⟨a', ha', hhasha, heqa⟩ := exists_mem_foldl_keepNew hrefl [] a ha
    obtain ⟨b', hb', hhashb, heqb⟩ := exists_mem_foldl_keepNew hrefl [] b hb
    have hsame : a' = b' :=
      (hfirst a' ha' (htrans _ _ _ heqa heq)).trans (hfirst b' hb' heqb).symm
    rw [← hhasha, ← hhashb, hsame]
  · intro hlaw a ha
    have hfold : (l.foldl (keepNew hash eq key) []).filter (fun b => eq (key b) (key a)) =
        (l.find? fun b => eq (key b) (key a)).toList :=
      filter_foldl_keepNew hsymm htrans (key a) hlaw
    have hfound : (l.find? fun b => eq (key b) (key a)).isSome = true :=
      List.find?_isSome.mpr ⟨a, ha, hrefl _⟩
    cases hfind : l.find? fun b => eq (key b) (key a) with
    | none => rw [hfind] at hfound; cases hfound
    | some first => exact ⟨first, rfl, by rw [hfold, hfind]; rfl⟩

end FirstOfKey
end ReadexPtf
