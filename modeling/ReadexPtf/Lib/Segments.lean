import ReadexPtf.Lib.Strings
import Mathlib

/-! What a search in a text finds, and the segments between separators that have a marker. -/
namespace ReadexPtf

section Search
variable {pattern text : List Char} {pos i : ℕ}

theorem findFrom_eq_some : findFrom pattern text pos = some i ↔
    i ≤ text.length ∧ pos ≤ i ∧ pattern <+: text.drop i ∧
      ∀ j, pos ≤ j → j < i → ¬ pattern <+: text.drop j := by
  rw [findFrom, List.find?_range_eq_some]
  simp only [Bool.and_eq_true, decide_eq_true_eq, List.isPrefixOf_iff_prefix, List.mem_range,
    Bool.not_eq_true', Bool.and_eq_false_iff, decide_eq_false_iff_not]
  constructor
  · rintro ⟨⟨hpos, hstart⟩, hlength, hbefore⟩
    refine ⟨by omega, hpos, hstart, fun j hj hji hmatch => ?_⟩
    cases hbefore j hji with
    | inl h => exact h hj
    | inr h => exact Bool.false_ne_true (h.symm.trans (List.isPrefixOf_iff_prefix.mpr hmatch))
  · rintro ⟨hlength, hpos, hstart, hbefore⟩
    refine ⟨⟨hpos, hstart⟩, by omega, fun j hji => ?_⟩
    by_cases hj : pos ≤ j
    · exact .inr (Bool.eq_false_iff.mpr fun h => hbefore j hj hji (List.isPrefixOf_iff_prefix.mp h))
    · exact .inl hj

theorem findFrom_eq_none : findFrom pattern text pos = none ↔
    ∀ j ≤ text.length, pos ≤ j → ¬ pattern <+: text.drop j := by
  rw [findFrom, List.find?_range_eq_none]
  simp only [Bool.not_eq_true', Bool.and_eq_false_iff, decide_eq_false_iff_not, Nat.lt_succ_iff]
  refine forall₂_congr fun j _ => ?_
  rw [imp_iff_not_or, ← List.isPrefixOf_iff_prefix, Bool.not_eq_true]

/-- A character is found where the text before it has none. -/
theorem findFrom_char_some {c : Char} (h : findFrom [c] text pos = some i) :
    pos ≤ i ∧ c ∉ (text.drop pos).take (i - pos) ∧ ∃ rest, text.drop i = c :: rest := by
  obtain ⟨-, hpos, ⟨rest, hrest⟩, hbefore⟩ := findFrom_eq_some.mp h
  refine ⟨hpos, fun hmem => ?_, rest, hrest.symm⟩
  obtain ⟨k, hk, hget⟩ := List.mem_iff_getElem.mp hmem
  rw [List.length_take, List.length_drop] at hk
  rw [List.getElem_take, List.getElem_drop] at hget
  refine hbefore (pos + k) (Nat.le_add_right _ _) (by omega) ?_
  rw [List.drop_eq_getElem_cons (by omega), hget]
  exact List.prefix_append [c] _

theorem findFrom_char_none {c : Char} (h : findFrom [c] text pos = none) : c ∉ text.drop pos := by
  intro hmem
  obtain ⟨k, hk, hget⟩ := List.mem_iff_getElem.mp hmem
  rw [List.length_drop] at hk
  rw [List.getElem_drop] at hget
  refine findFrom_eq_none.mp h (pos + k) (by omega) (Nat.le_add_right _ _) ?_
  rw [List.drop_eq_getElem_cons (by omega), hget]
  exact List.prefix_append [c] _

theorem drop_eq_take_append (text : List Char) {pos i : ℕ} (h : pos ≤ i) :
    text.drop pos = (text.drop pos).take (i - pos) ++ text.drop i := by
  have hdrop : text.drop i = (text.drop pos).drop (i - pos) := by
    rw [List.drop_drop, Nat.add_sub_cancel' h]
  rw [hdrop, List.take_append_drop]

end Search

section Marked
variable {marker : List Char} {separator : Char}

/-- The text from the first marker on. -/
def markedFrom (marker : List Char) : List Char → Option (List Char)
  | [] => none
  | c :: cs => if marker.isPrefixOf (c :: cs) then some (c :: cs) else markedFrom marker cs

/-- For each segment with a marker, what it has from the first one on. -/
def markedSegments (marker : List Char) (separator : Char) (text : List Char) :
    List (List Char) :=
  (text.splitOn separator).filterMap (markedFrom marker)

theorem markedFrom_of_start {c : Char} {cs : List Char} (h : marker <+: c :: cs) :
    markedFrom marker (c :: cs) = some (c :: cs) := by
  rw [markedFrom, if_pos (List.isPrefixOf_iff_prefix.mpr h)]

theorem markedFrom_of_not {c : Char} {cs : List Char} (h : ¬ marker <+: c :: cs) :
    markedFrom marker (c :: cs) = markedFrom marker cs := by
  rw [markedFrom, if_neg fun hstart => h (List.isPrefixOf_iff_prefix.mp hstart)]

theorem prefix_of_markedFrom {text rest : List Char} (h : markedFrom marker text = some rest) :
    marker <+: rest := by
  induction text with
  | nil => cases h
  | cons c cs ih =>
    by_cases hstart : marker <+: c :: cs
    · rw [markedFrom_of_start hstart] at h
      exact Option.some.inj h ▸ hstart
    · rw [markedFrom_of_not hstart] at h
      exact ih h

/-- The search for the marker. -/
theorem markedFrom_drop (hmarker : marker ≠ []) (text : List Char) (pos : ℕ) :
    markedFrom marker (text.drop pos) = (findFrom marker text pos).map fun i => text.drop i := by
  have hlist : ∀ rest i, rest = text.drop i → pos ≤ i →
      (∀ j, pos ≤ j → j < i → ¬ marker <+: text.drop j) →
      markedFrom marker rest = (findFrom marker text pos).map fun i => text.drop i := by
    intro rest
    induction rest with
    | nil =>
      intro i hrest hpos hbefore
      have hlength : text.length ≤ i := List.drop_eq_nil_iff.mp hrest.symm
      have hnone : findFrom marker text pos = none := by
        refine findFrom_eq_none.mpr fun j hj hpj hstart => ?_
        by_cases hji : j < i
        · exact hbefore j hpj hji hstart
        · rw [List.drop_eq_nil_of_le (by omega), List.prefix_nil] at hstart
          exact hmarker hstart
      rw [hnone]
      rfl
    | cons c cs ih =>
      intro i hrest hpos hbefore
      have hlength : i < text.length := by
        by_contra hlength
        rw [List.drop_eq_nil_of_le (not_lt.mp hlength)] at hrest
        cases hrest
      by_cases hstart : marker <+: c :: cs
      · have hsome : findFrom marker text pos = some i :=
          findFrom_eq_some.mpr ⟨hlength.le, hpos, hrest ▸ hstart, hbefore⟩
        rw [markedFrom_of_start hstart, hsome, hrest]
        rfl
      · rw [markedFrom_of_not hstart]
        refine ih (i + 1) ?_ (by omega) fun j hj hji => ?_
        · rw [List.drop_eq_getElem_cons hlength] at hrest
          exact (List.cons.inj hrest).2
        · rcases Nat.lt_succ_iff_lt_or_eq.mp hji with hji | rfl
          · exact hbefore j hj hji
          · rwa [← hrest]
  exact hlist _ pos rfl le_rfl fun j hj hjp => absurd hj (not_le.mpr hjp)

theorem splitOn_cons (c : Char) (cs : List Char) : (c :: cs).splitOn separator =
    if c = separator then [] :: cs.splitOn separator
    else (cs.splitOn separator).modifyHead (c :: ·) := by
  rw [List.splitOn_eq_splitOnP, List.splitOnP_cons_eq_if_modifyHead, ← List.splitOn_eq_splitOnP]
  simp only [beq_iff_eq]

/-- The first segment is what stands before the first separator. -/
theorem head_splitOn_start {text segment : List Char} {others : List (List Char)}
    (h : text.splitOn separator = segment :: others) : segment <+: text := by
  induction text generalizing segment others with
  | nil =>
    rw [List.splitOn_nil] at h
    rw [← (List.cons.inj h).1]
  | cons c cs ih =>
    rw [splitOn_cons] at h
    split_ifs at h with hc
    · rw [← (List.cons.inj h).1]
      exact List.nil_prefix
    · obtain ⟨first, more, hfirst⟩ := List.exists_cons_of_ne_nil (List.splitOn_ne_nil separator cs)
      rw [hfirst, List.modifyHead_cons] at h
      rw [← (List.cons.inj h).1]
      exact List.cons_prefix_cons.mpr ⟨rfl, ih hfirst⟩

/-- A text without separators is in one segment. -/
theorem prefix_head_splitOn {part text segment : List Char} {others : List (List Char)}
    (h : part <+: text) (hpart : separator ∉ part)
    (hsplit : text.splitOn separator = segment :: others) : part <+: segment := by
  obtain ⟨rest, rfl⟩ := h
  induction part generalizing segment others with
  | nil => exact List.nil_prefix
  | cons c cs ih =>
    rw [List.mem_cons, not_or] at hpart
    obtain ⟨head, more, hhead⟩ :=
      List.exists_cons_of_ne_nil (List.splitOn_ne_nil separator (cs ++ rest))
    rw [List.cons_append, splitOn_cons, if_neg (Ne.symm hpart.1), hhead,
      List.modifyHead_cons] at hsplit
    rw [← (List.cons.inj hsplit).1]
    exact List.cons_prefix_cons.mpr ⟨rfl, ih hpart.2 hhead⟩

theorem splitOn_append_separator {segment : List Char} (h : separator ∉ segment)
    (rest : List Char) :
    (segment ++ separator :: rest).splitOn separator = segment :: rest.splitOn separator := by
  have hplain : ∀ c ∈ segment, (c == separator) = false := fun c hc =>
    beq_false_of_ne fun heq => h (heq ▸ hc)
  rw [List.splitOn_eq_splitOnP,
    List.splitOnP_append_cons_of_forall_mem hplain separator (beq_self_eq_true separator),
    ← List.splitOn_eq_splitOnP]

/-- The last segment goes on in what is appended. -/
theorem splitOn_append (separator : Char) (text : List Char) : ∃ init last, text.splitOn separator = init ++ [last] ∧
    ∀ other first more, other.splitOn separator = first :: more →
      (text ++ other).splitOn separator = init ++ (last ++ first) :: more := by
  induction text with
  | nil => exact ⟨[], [], List.splitOn_nil _, fun _ _ _ h => h⟩
  | cons c cs ih =>
    obtain ⟨init, last, hsplit, happend⟩ := ih
    by_cases hc : c = separator
    · refine ⟨[] :: init, last, by rw [splitOn_cons, if_pos hc, hsplit]; rfl, ?_⟩
      intro other first more hother
      rw [List.cons_append, splitOn_cons, if_pos hc, happend other first more hother]
      rfl
    · cases init with
      | nil =>
        refine ⟨[], c :: last, by rw [splitOn_cons, if_neg hc, hsplit]; rfl, ?_⟩
        intro other first more hother
        rw [List.cons_append, splitOn_cons, if_neg hc, happend other first more hother]
        rfl
      | cons head init =>
        refine ⟨(c :: head) :: init, last, by rw [splitOn_cons, if_neg hc, hsplit]; rfl, ?_⟩
        intro other first more hother
        rw [List.cons_append, splitOn_cons, if_neg hc, happend other first more hother]
        rfl

theorem markedSegments_nil : markedSegments marker separator [] = [] := by
  rw [markedSegments, List.splitOn_nil]
  rfl

theorem markedSegments_separator (cs : List Char) :
    markedSegments marker separator (separator :: cs) = markedSegments marker separator cs := by
  rw [markedSegments, splitOn_cons, if_pos rfl]
  rfl

/-- A character with which no marker starts makes no difference. -/
theorem markedSegments_of_not {c : Char} {cs : List Char} (h : ¬ marker <+: c :: cs) :
    markedSegments marker separator (c :: cs) = markedSegments marker separator cs := by
  by_cases hc : c = separator
  · rw [hc, markedSegments_separator]
  · obtain ⟨first, more, hfirst⟩ := List.exists_cons_of_ne_nil (List.splitOn_ne_nil separator cs)
    have hmarked : markedFrom marker (c :: first) = markedFrom marker first :=
      markedFrom_of_not fun hstart =>
        h (hstart.trans (List.cons_prefix_cons.mpr ⟨rfl, head_splitOn_start hfirst⟩))
    rw [markedSegments, splitOn_cons, if_neg hc, hfirst, List.modifyHead_cons, markedSegments,
      hfirst, List.filterMap_cons, List.filterMap_cons, hmarked]

theorem markedSegments_eq (text : List Char) : markedSegments marker separator text =
    ((markedFrom marker text).map (markedSegments marker separator)).getD [] := by
  induction text with
  | nil => exact markedSegments_nil
  | cons c cs ih =>
    by_cases hstart : marker <+: c :: cs
    · rw [markedFrom_of_start hstart]
      rfl
    · rw [markedFrom_of_not hstart, markedSegments_of_not hstart, ih]

variable {m : Char} {ms : List Char}

/-- A segment that starts with the marker, up to the separator. -/
theorem markedSegments_append_separator {segment rest : List Char}
    (hsegment : separator ∉ segment) (hmarker : m :: ms <+: segment) :
    markedSegments (m :: ms) separator (segment ++ separator :: rest) =
      segment :: markedSegments (m :: ms) separator rest := by
  obtain ⟨c, cs, rfl⟩ := List.exists_cons_of_ne_nil (hmarker.ne_nil (List.cons_ne_nil m ms))
  rw [markedSegments, splitOn_append_separator hsegment,
    List.filterMap_cons_some (markedFrom_of_start hmarker)]
  rfl

theorem markedSegments_singleton {segment : List Char} (hsegment : separator ∉ segment)
    (hmarker : m :: ms <+: segment) :
    markedSegments (m :: ms) separator segment = [segment] := by
  obtain ⟨c, cs, rfl⟩ := List.exists_cons_of_ne_nil (hmarker.ne_nil (List.cons_ne_nil m ms))
  have hplain : ∀ d ∈ c :: cs, (d == separator) = false := fun d hd =>
    beq_false_of_ne fun heq => hsegment (heq ▸ hd)
  rw [markedSegments, List.splitOn_eq_splitOnP, List.splitOnP_eq_singleton hplain,
    List.filterMap_cons_some (markedFrom_of_start hmarker), List.filterMap_nil]

/-- The first segment of a text that starts with the marker. -/
theorem markedSegments_of_start (hseparator : separator ∉ m :: ms) {text : List Char}
    (h : m :: ms <+: text) : markedSegments (m :: ms) separator text ≠ [] := by
  obtain ⟨first, more, hfirst⟩ :=
    List.exists_cons_of_ne_nil (List.splitOn_ne_nil separator text)
  have hmarked := prefix_head_splitOn h hseparator hfirst
  obtain ⟨c, cs, rfl⟩ := List.exists_cons_of_ne_nil (hmarked.ne_nil (List.cons_ne_nil m ms))
  rw [markedSegments, hfirst, List.filterMap_cons_some (markedFrom_of_start hmarked)]
  exact List.cons_ne_nil _ _

/-- A marker that no end of it can start again is not begun by the text before it. -/
theorem markedFrom_append (hm : m ∉ ms) {first : List Char} (hfirst : m :: ms <+: first)
    (last : List Char) : ∃ x, markedFrom (m :: ms) (last ++ first) = some x ∧
      ∀ e, markedFrom (m :: ms) last = some e → x = e ++ first := by
  induction last with
  | nil =>
    obtain ⟨c, cs, rfl⟩ := List.exists_cons_of_ne_nil (hfirst.ne_nil (List.cons_ne_nil m ms))
    exact ⟨_, markedFrom_of_start hfirst, fun e he => by cases he⟩
  | cons c l ih =>
    by_cases hstart : m :: ms <+: c :: l
    · refine ⟨c :: l ++ first, markedFrom_of_start (hstart.trans (List.prefix_append _ _)), ?_⟩
      intro e he
      rw [markedFrom_of_start hstart] at he
      rw [Option.some.inj he]
    · have happend : ¬ m :: ms <+: c :: (l ++ first) := by
        intro hlong
        rcases List.prefix_or_prefix_of_prefix hlong (List.prefix_append (c :: l) first) with
          hshort | hinside
        · exact hstart hshort
        · obtain ⟨t, ht⟩ := hinside
          rw [List.cons_append, List.cons.injEq] at ht
          have hrest : t <+: first := by
            rw [← ht.1, ← ht.2, ← List.cons_append, ← List.cons_append] at hlong
            exact (List.prefix_append_right_inj _).mp hlong
          cases t with
          | nil =>
            rw [List.append_nil] at ht
            exact hstart ⟨[], by rw [List.append_nil, ht.1, ht.2]⟩
          | cons y t =>
            obtain ⟨rest, rfl⟩ := hfirst
            have hy : y = m := (List.cons_prefix_cons.mp hrest).1
            exact hm (by rw [← ht.2, hy]; exact List.mem_append_right l List.mem_cons_self)
      rw [List.cons_append, markedFrom_of_not happend, markedFrom_of_not hstart]
      exact ih

/-- What is appended after a marker makes a new segment, or changes the last one. -/
theorem markedSegments_append (hm : m ∉ ms) (hseparator : separator ∉ m :: ms)
    (text : List Char) {other : List Char} (hother : m :: ms <+: other) :
    ∃ init x more, markedSegments (m :: ms) separator (text ++ other) = init ++ x :: more ∧
      (markedSegments (m :: ms) separator text = init ∨
        ∃ e, markedSegments (m :: ms) separator text = init ++ [e] ∧ e ≠ x) := by
  obtain ⟨init, last, hsplit, happend⟩ := splitOn_append separator text
  obtain ⟨first, more, hfirst⟩ :=
    List.exists_cons_of_ne_nil (List.splitOn_ne_nil separator other)
  have hmarked := prefix_head_splitOn hother hseparator hfirst
  obtain ⟨x, hx, hlast⟩ := markedFrom_append hm hmarked last
  refine ⟨init.filterMap (markedFrom (m :: ms)), x, more.filterMap (markedFrom (m :: ms)), ?_, ?_⟩
  · rw [markedSegments, happend other first more hfirst, List.filterMap_append,
      List.filterMap_cons_some hx]
  · rw [markedSegments, hsplit, List.filterMap_append]
    cases he : markedFrom (m :: ms) last with
    | none =>
      rw [List.filterMap_cons_none he, List.filterMap_nil, List.append_nil]
      exact .inl rfl
    | some e =>
      rw [List.filterMap_cons_some he, List.filterMap_nil]
      refine .inr ⟨e, rfl, fun hsame => ?_⟩
      rw [hlast e he] at hsame
      exact hmarked.ne_nil (List.cons_ne_nil m ms) (List.append_right_eq_self.mp hsame.symm)

end Marked

section Scanned
variable {σ : Type} {separator : Char} (cuts : σ → Bool) (next : σ → Char → σ)

/-- The parts between the separators at which the scan cuts, in the state it is in there. -/
def segmentsBy (separator : Char) : σ → List Char → List (List Char)
  | _, [] => [[]]
  | s, c :: cs =>
    if c = separator ∧ cuts s then [] :: segmentsBy separator (next s c) cs
    else (segmentsBy separator (next s c) cs).modifyHead (c :: ·)

variable {cuts next}

variable (cuts next) in
theorem segmentsBy_ne_nil (separator : Char) (s : σ) (text : List Char) :
    segmentsBy cuts next separator s text ≠ [] := by
  induction text generalizing s with
  | nil => exact List.cons_ne_nil _ _
  | cons c cs ih =>
    rw [segmentsBy]
    split_ifs with hcut
    · exact List.cons_ne_nil _ _
    · obtain ⟨first, more, hfirst⟩ := List.exists_cons_of_ne_nil (ih (next s c))
      rw [hfirst]
      exact List.cons_ne_nil _ _

/-- A scan only drops the separators at which it cuts: fewer parts are longer. -/
theorem sum_length_segmentsBy (cuts : σ → Bool) (next : σ → Char → σ) (separator : Char) (s : σ)
    (text : List Char) :
    ((segmentsBy cuts next separator s text).map List.length).sum +
      (segmentsBy cuts next separator s text).length = text.length + 1 := by
  induction text generalizing s with
  | nil => rfl
  | cons c cs ih =>
    have hrest := ih (next s c)
    rw [segmentsBy]
    split_ifs with hcut
    · rw [List.map_cons, List.sum_cons, List.length_cons, List.length_nil, List.length_cons]
      omega
    · obtain ⟨first, more, hfirst⟩ :=
        List.exists_cons_of_ne_nil (segmentsBy_ne_nil cuts next separator (next s c) cs)
      rw [hfirst, List.map_cons, List.sum_cons, List.length_cons] at hrest
      rw [hfirst, List.modifyHead_cons, List.map_cons, List.sum_cons, List.length_cons,
        List.length_cons, List.length_cons]
      omega

/-- Parts without separators are all the parts there are. -/
theorem segmentsBy_eq_splitOn {s : σ} {text : List Char}
    (h : ∀ segment ∈ segmentsBy cuts next separator s text, separator ∉ segment) :
    segmentsBy cuts next separator s text = text.splitOn separator := by
  induction text generalizing s with
  | nil => rfl
  | cons c cs ih =>
    rw [segmentsBy] at h ⊢
    rw [splitOn_cons]
    split_ifs at h ⊢ with hcut hc hc
    · rw [ih fun segment hsegment => h segment (List.mem_cons_of_mem _ hsegment)]
    · exact absurd hcut.1 hc
    all_goals
      obtain ⟨first, more, hfirst⟩ :=
        List.exists_cons_of_ne_nil (segmentsBy_ne_nil cuts next separator (next s c) cs)
      rw [hfirst, List.modifyHead_cons, List.forall_mem_cons, List.mem_cons, not_or] at h
    · exact absurd hc.symm h.1.1
    · rw [ih (by rw [hfirst]; exact List.forall_mem_cons.mpr ⟨h.1.2, h.2⟩)]

/-- What every part is that a scan completes, and the first one for the state it starts in. -/
theorem segmentsBy_forall (first : σ → List Char → Prop) (p : List Char → Prop)
    (hnil : ∀ s, first s [])
    (hcut : ∀ s segment, cuts s → first (next s separator) segment → p segment)
    (hcons : ∀ s c segment, ¬ (c = separator ∧ cuts s) → first (next s c) segment →
      first s (c :: segment)) (s : σ) (text : List Char) :
    ∃ head more, segmentsBy cuts next separator s text = head :: more ∧ first s head ∧
      ∀ segment ∈ more, p segment := by
  induction text generalizing s with
  | nil => exact ⟨[], [], rfl, hnil s, List.forall_mem_nil _⟩
  | cons c cs ih =>
    obtain ⟨head, more, hsegments, hhead, hmore⟩ := ih (next s c)
    rw [segmentsBy, hsegments]
    split_ifs with hc
    · obtain ⟨rfl, hs⟩ := hc
      exact ⟨[], head :: more, rfl, hnil s, List.forall_mem_cons.mpr ⟨hcut s head hs hhead, hmore⟩⟩
    · exact ⟨c :: head, more, rfl, hcons s c head hc hhead, hmore⟩

end Scanned

end ReadexPtf
