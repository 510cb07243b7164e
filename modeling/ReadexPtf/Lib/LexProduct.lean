import Mathlib

/-! The lexicographic product of finitely many value lists: every choice of one
value from each list, the first list varying slowest. -/
namespace ReadexPtf
variable {α β σ : Type*}

def lexProduct : List (List α) → List (List α)
  | [] => [[]]
  | xs :: xss => xs.flatMap fun x => (lexProduct xss).map (x :: ·)

@[simp] theorem lexProduct_nil : lexProduct ([] : List (List α)) = [[]] := rfl

theorem mem_lexProduct {xss : List (List α)} {c : List α} :
    c ∈ lexProduct xss ↔ List.Forall₂ (· ∈ ·) c xss := by
  induction xss generalizing c with
  | nil => simp
  | cons xs xss ih =>
    constructor
    · intro h
      obtain ⟨x, hx, d, hd, rfl⟩ : ∃ x ∈ xs, ∃ d ∈ lexProduct xss, x :: d = c := by
        simpa [lexProduct] using h
      exact .cons hx (ih.mp hd)
    · intro h
      cases h with
      | cons hx hd =>
        simp only [lexProduct, List.mem_flatMap, List.mem_map]
        exact ⟨_, hx, _, ih.mpr hd, rfl⟩

/-- Increasing value lists make the product increase in the lexicographic order. -/
theorem pairwise_lexProduct {r : α → α → Prop} {xss : List (List α)}
    (h : ∀ xs ∈ xss, xs.Pairwise r) : (lexProduct xss).Pairwise (List.Lex r) := by
  induction xss with
  | nil => simp
  | cons xs xss ih =>
    have htail : (lexProduct xss).Pairwise (List.Lex r) :=
      ih fun ys hys => h ys (List.mem_cons_of_mem xs hys)
    refine List.pairwise_flatMap.mpr ⟨fun x _ => ?_, ?_⟩
    · exact List.pairwise_map.mpr (htail.imp fun hlt => List.Lex.cons hlt)
    · refine (h xs List.mem_cons_self).imp fun hxy c hc d hd => ?_
      obtain ⟨c', _, rfl⟩ := List.mem_map.mp hc
      obtain ⟨d', _, rfl⟩ := List.mem_map.mp hd
      exact List.Lex.rel hxy

theorem nodup_lexProduct {xss : List (List α)} (h : ∀ xs ∈ xss, xs.Nodup) :
    (lexProduct xss).Nodup := by
  induction xss with
  | nil => simp
  | cons xs xss ih =>
    have htail : (lexProduct xss).Nodup := ih fun ys hys => h ys (List.mem_cons_of_mem xs hys)
    refine List.nodup_flatMap.mpr ⟨fun x _ => htail.map (List.cons_injective), ?_⟩
    refine (h xs List.mem_cons_self).imp fun hxy c hc hd => ?_
    obtain ⟨c', _, rfl⟩ := List.mem_map.mp hc
    obtain ⟨d', _, heq⟩ := List.mem_map.mp hd
    exact hxy (List.cons.inj heq).1.symm

theorem lexProduct_ne_nil {xss : List (List α)} (h : ∀ xs ∈ xss, xs ≠ []) :
    lexProduct xss ≠ [] := by
  induction xss with
  | nil => simp
  | cons xs xss ih =>
    obtain ⟨x, hx⟩ := List.exists_mem_of_ne_nil xs (h xs List.mem_cons_self)
    obtain ⟨c, hc⟩ := List.exists_mem_of_ne_nil _ (ih fun ys hys => h ys (List.mem_cons_of_mem xs hys))
    have hmem : x :: c ∈ lexProduct (xs :: xss) :=
      mem_lexProduct.mpr (.cons hx (mem_lexProduct.mp hc))
    exact List.ne_nil_of_mem hmem

theorem length_of_mem_lexProduct {xss : List (List α)} {c : List α} (h : c ∈ lexProduct xss) :
    c.length = xss.length :=
  (mem_lexProduct.mp h).length_eq

theorem lexProduct_append (xss yss : List (List α)) :
    lexProduct (xss ++ yss) = (lexProduct xss).flatMap fun c => (lexProduct yss).map (c ++ ·) := by
  induction xss with
  | nil => simp
  | cons xs xss ih =>
    simp only [List.cons_append, lexProduct, ih, List.map_flatMap, List.flatMap_assoc,
      List.flatMap_map, List.map_map]
    rfl

theorem foldl_lexProduct_append (f : σ → List α → σ) (xss yss : List (List α)) (s : σ) :
    (lexProduct (xss ++ yss)).foldl f s =
      (lexProduct xss).foldl (fun s c => (lexProduct yss).foldl (fun s d => f s (c ++ d)) s) s := by
  rw [lexProduct_append, List.foldl_flatMap]
  congr 1
  funext s c
  rw [List.foldl_map]

/-- One loop over a product is the loop over its first list around the loop over the rest. -/
theorem foldl_lexProduct_cons (f : σ → List α → σ) (xs : List α) (xss : List (List α)) (s : σ) :
    (lexProduct (xs :: xss)).foldl f s =
      xs.foldl (fun s x => (lexProduct xss).foldl (fun s c => f s (x :: c)) s) s := by
  induction xs generalizing s with
  | nil => rfl
  | cons x xs ih =>
    have hsplit : lexProduct ((x :: xs) :: xss) =
        (lexProduct xss).map (x :: ·) ++ lexProduct (xs :: xss) := by
      simp [lexProduct]
    rw [hsplit, List.foldl_append, List.foldl_map, ih, List.foldl_cons]

end ReadexPtf
