import ReadexPtf.Lib.Outcome
import Mathlib

/-! Ordered maps as key-sorted association lists: the value model of `std::map`.
Traversal is in key order, so a map is determined by its lookups. -/
namespace ReadexPtf
variable {κ ν : Type*} [LinearOrder κ]

namespace OrdMap.Entries

def insert (k : κ) (v : ν) : List (κ × ν) → List (κ × ν)
  | [] => [(k, v)]
  | e :: es =>
    if k < e.1 then (k, v) :: e :: es
    else if k = e.1 then (k, v) :: es
    else e :: insert k v es

theorem lookup_cons (k : κ) (e : κ × ν) (es : List (κ × ν)) :
    (e :: es).lookup k = if k = e.1 then some e.2 else es.lookup k := by
  by_cases h : k = e.1
  · simp [List.lookup, h]
  · simp [List.lookup, h, beq_eq_false_iff_ne.mpr h]

theorem mem_insert {k : κ} {v : ν} {e : κ × ν} {es : List (κ × ν)}
    (h : e ∈ insert k v es) : e = (k, v) ∨ e ∈ es := by
  induction es with
  | nil => simpa [insert] using h
  | cons d es ih =>
    simp only [insert] at h
    split_ifs at h with hlt heq
    · simpa using h
    · rcases List.mem_cons.mp h with h | h
      · exact .inl h
      · exact .inr (List.mem_cons_of_mem d h)
    · rcases List.mem_cons.mp h with h | h
      · exact .inr (h ▸ List.mem_cons_self)
      · exact (ih h).imp_right (List.mem_cons_of_mem d)

theorem sorted_insert (k : κ) (v : ν) {es : List (κ × ν)}
    (h : es.Pairwise (fun a b => a.1 < b.1)) :
    (insert k v es).Pairwise (fun a b => a.1 < b.1) := by
  induction es with
  | nil => simp [insert]
  | cons d es ih =>
    obtain ⟨hd, hes⟩ := List.pairwise_cons.mp h
    simp only [insert]
    split_ifs with hlt heq
    · refine List.pairwise_cons.mpr ⟨fun e he => ?_, h⟩
      rcases List.mem_cons.mp he with rfl | he
      · exact hlt
      · exact hlt.trans (hd e he)
    · exact List.pairwise_cons.mpr ⟨fun e he => heq ▸ hd e he, hes⟩
    · refine List.pairwise_cons.mpr ⟨fun e he => ?_, ih hes⟩
      rcases mem_insert he with rfl | he
      · exact lt_of_le_of_ne (not_lt.mp hlt) (Ne.symm heq)
      · exact hd e he

theorem lookup_insert (k k' : κ) (v : ν) (es : List (κ × ν)) :
    (insert k v es).lookup k' = if k' = k then some v else es.lookup k' := by
  induction es with
  | nil => simp [insert, lookup_cons]
  | cons d es ih =>
    rw [insert]
    by_cases hlt : k < d.1
    · rw [if_pos hlt, lookup_cons]
    · rw [if_neg hlt]
      by_cases heq : k = d.1
      · rw [if_pos heq, lookup_cons, lookup_cons]
        by_cases h : k' = k <;> simp [h, ← heq]
      · rw [if_neg heq, lookup_cons, lookup_cons, ih]
        by_cases h : k' = k
        · simp [h, heq]
        · simp [h]

theorem lookup_eq_some {es : List (κ × ν)} (h : es.Pairwise (fun a b => a.1 < b.1))
    {k : κ} {v : ν} : es.lookup k = some v ↔ (k, v) ∈ es := by
  induction es with
  | nil => simp
  | cons d es ih =>
    obtain ⟨hd, hes⟩ := List.pairwise_cons.mp h
    obtain ⟨dk, dv⟩ := d
    by_cases hk : k = dk
    · subst hk
      have hnot : (k, v) ∉ es := fun hm => lt_irrefl k (hd _ hm)
      simp [lookup_cons, hnot, eq_comm]
    · simp [lookup_cons, hk, ih hes]

theorem insert_last {k : κ} {v : ν} {es : List (κ × ν)} (h : ∀ e ∈ es, e.1 < k) :
    insert k v es = es ++ [(k, v)] := by
  induction es with
  | nil => rfl
  | cons d es ih =>
    have hd : d.1 < k := h d List.mem_cons_self
    simp [insert, hd.asymm, hd.ne', ih fun e he => h e (List.mem_cons_of_mem d he)]

/-- A new element in the list of a key. -/
theorem flatMap_insert_append {α : Type*} {k : κ} (x : α) {es : List (κ × List α)}
    (h : es.Pairwise (fun a b => a.1 < b.1)) :
    ((insert k ((es.lookup k).getD [] ++ [x]) es).flatMap Prod.snd).Perm
      (es.flatMap Prod.snd ++ [x]) := by
  induction es with
  | nil => exact .refl _
  | cons e es ih =>
    obtain ⟨he, hes⟩ := List.pairwise_cons.mp h
    rw [lookup_cons, insert]
    split_ifs with hlt heq heq
    · exact absurd heq hlt.ne
    · have hnone : es.lookup k = none := by
        cases hsome : es.lookup k with
        | none => rfl
        | some v =>
          have hmem := (lookup_eq_some hes).mp hsome
          exact absurd (he (k, v) hmem) (not_lt.mpr hlt.le)
      rw [hnone]
      exact List.perm_append_comm
    · simp only [Option.getD_some, List.flatMap_cons, List.append_assoc]
      exact List.perm_append_comm.append_left e.2
    · simp only [List.flatMap_cons, List.append_assoc]
      exact (ih hes).append_left e.2

/-- A new key is one entry more. -/
theorem insert_perm {k : κ} {es : List (κ × ν)} (hnew : k ∉ es.map Prod.fst) (v : ν) :
    (insert k v es).Perm ((k, v) :: es) := by
  induction es with
  | nil => exact .refl _
  | cons e es ih =>
    rw [List.map_cons, List.mem_cons, not_or] at hnew
    rw [insert, if_neg hnew.1]
    split_ifs with hlt
    · exact .refl _
    · exact ((ih hnew.2).cons e).trans (.swap _ _ _)

/-- The entries without one of them. -/
theorem filter_ne_perm {e : κ × ν} {es : List (κ × ν)} (h : es.Pairwise (fun a b => a.1 < b.1))
    (he : e ∈ es) : es.Perm (e :: es.filter fun d => d.1 != e.1) := by
  induction es with
  | nil => exact absurd he List.not_mem_nil
  | cons d es ih =>
    obtain ⟨hd, hes⟩ := List.pairwise_cons.mp h
    cases List.mem_cons.mp he with
    | inl hself =>
      have hall : es.filter (fun c => c.1 != e.1) = es := by
        refine List.filter_eq_self.mpr fun c hc => ?_
        simpa [hself] using (hd c hc).ne'
      rw [List.filter_cons, hself]
      simp only [bne_self_eq_false, Bool.false_eq_true, if_false]
      rw [← hself, hall]
    | inr hrest =>
      have hne : (d.1 != e.1) = true := by simpa using (hd e hrest).ne
      rw [List.filter_cons, if_pos hne]
      exact ((ih hes hrest).cons d).trans (.swap _ _ _)

end OrdMap.Entries

/-- A map with its key order as a field: two keys never collide and none is out of place. -/
structure OrdMap (κ ν : Type*) [LinearOrder κ] where
  entries : List (κ × ν)
  sorted : entries.Pairwise (fun a b => a.1 < b.1)

namespace OrdMap

instance [DecidableEq ν] : DecidableEq (OrdMap κ ν) := fun a b =>
  decidable_of_iff (a.entries = b.entries) (by cases a; cases b; simp)

def empty : OrdMap κ ν := ⟨[], .nil⟩
def get? (m : OrdMap κ ν) (k : κ) : Option ν := m.entries.lookup k
/-- `m[k] = v`. -/
def set (m : OrdMap κ ν) (k : κ) (v : ν) : OrdMap κ ν :=
  ⟨Entries.insert k v m.entries, Entries.sorted_insert k v m.sorted⟩
/-- `m.insert( make_pair( k, v ) )`: an entry that is there already stays. -/
def insertNew (m : OrdMap κ ν) (k : κ) (v : ν) : OrdMap κ ν :=
  if (m.get? k).isSome then m else m.set k v
/-- `m.insert( m'.begin(), m'.end() )`. -/
def insertAll (m m' : OrdMap κ ν) : OrdMap κ ν :=
  m'.entries.foldl (fun m e => m.insertNew e.1 e.2) m
def keys (m : OrdMap κ ν) : List κ := m.entries.map Prod.fst
def ofList (es : List (κ × ν)) : OrdMap κ ν := es.foldl (fun m e => m.set e.1 e.2) empty

/-- The entries whose keys are kept; the others are erased. -/
def filterKeys (m : OrdMap κ ν) (kept : κ → Bool) : OrdMap κ ν :=
  ⟨m.entries.filter fun e => kept e.1, m.sorted.filter _⟩

@[simp] theorem get?_empty (k : κ) : (empty : OrdMap κ ν).get? k = none := rfl
@[simp] theorem keys_empty : (empty : OrdMap κ ν).keys = [] := rfl

theorem get?_set (m : OrdMap κ ν) (k k' : κ) (v : ν) :
    (m.set k v).get? k' = if k' = k then some v else m.get? k' :=
  Entries.lookup_insert k k' v m.entries

@[simp] theorem get?_set_self (m : OrdMap κ ν) (k : κ) (v : ν) :
    (m.set k v).get? k = some v := by
  simp [get?_set]

theorem get?_set_ne (m : OrdMap κ ν) {k k' : κ} (v : ν) (h : k' ≠ k) :
    (m.set k v).get? k' = m.get? k' := by
  simp [get?_set, h]

theorem get?_insertNew (m : OrdMap κ ν) (k k' : κ) (v : ν) :
    (m.insertNew k v).get? k' = (m.get? k').or (if k' = k then some v else none) := by
  by_cases h : (m.get? k).isSome
  · obtain ⟨w, hw⟩ := Option.isSome_iff_exists.mp h
    rw [insertNew, if_pos h]
    by_cases hk : k' = k <;> simp [hk, hw]
  · have hnone : m.get? k = none := by simpa using h
    rw [insertNew, if_neg h, get?_set]
    by_cases hk : k' = k <;> simp [hk, hnone]

theorem get?_insertAll (m m' : OrdMap κ ν) (k : κ) :
    (m.insertAll m').get? k = (m.get? k).or (m'.get? k) := by
  rw [insertAll, show m'.get? k = m'.entries.lookup k from rfl]
  generalize m'.entries = es
  induction es generalizing m with
  | nil => simp
  | cons e es ih =>
    rw [List.foldl_cons, ih, get?_insertNew, Entries.lookup_cons, Option.or_assoc]
    by_cases hk : k = e.1 <;> simp [hk]

/-- A map filled from the keys alone. -/
theorem get?_foldl_set {ι : Type*} (key : ι → κ) (val : κ → ν) (l : List ι) (k : κ) :
    ∀ m : OrdMap κ ν, (l.foldl (fun m a => m.set (key a) (val (key a))) m).get? k =
      if k ∈ l.map key then some (val k) else m.get? k := by
  induction l with
  | nil => simp
  | cons a l ih =>
    intro m
    rw [List.foldl_cons, ih, get?_set, List.map_cons]
    by_cases hk : k = key a
    · simp [← hk]
    · simp [hk]

/-- A map filled by appending to the list of each key. -/
theorem get?_foldl_append {ι β : Type*} (key : ι → κ) (val : ι → β) (l : List ι) (k : κ) :
    ∀ m : OrdMap κ (List β),
      (l.foldl (fun m a => m.set (key a) ((m.get? (key a)).getD [] ++ [val a])) m).get? k =
        if k ∈ l.map key then
          some ((m.get? k).getD [] ++ (l.filter fun a => key a = k).map val)
        else m.get? k := by
  induction l with
  | nil => simp
  | cons a l ih =>
    intro m
    rw [List.foldl_cons, ih, get?_set, List.map_cons]
    by_cases hk : k = key a
    · subst hk
      by_cases hmem : key a ∈ l.map key
      · simp [hmem]
      · have hnone : l.filter (fun b => key b = key a) = [] := by
          apply List.filter_eq_nil_iff.mpr
          intro b hb hkey
          exact hmem (List.mem_map.mpr ⟨b, hb, of_decide_eq_true hkey⟩)
        simp [hmem, hnone]
    · simp [hk, Ne.symm hk]

/-- Of several new entries with one key the first stays. -/
theorem get?_foldl_insertNew {ι : Type*} (key : ι → κ) (val : ι → ν) (l : List ι) (k : κ) :
    ∀ m : OrdMap κ ν, (l.foldl (fun m a => m.insertNew (key a) (val a)) m).get? k =
      (m.get? k).or ((l.find? fun a => key a = k).map val) := by
  induction l with
  | nil => simp
  | cons a l ih =>
    intro m
    rw [List.foldl_cons, ih, get?_insertNew, Option.or_assoc]
    by_cases hk : key a = k
    · simp [hk]
    · simp [hk, Ne.symm hk]

theorem get?_eq_some {m : OrdMap κ ν} {k : κ} {v : ν} :
    m.get? k = some v ↔ (k, v) ∈ m.entries :=
  Entries.lookup_eq_some m.sorted

/-- The last key is the greatest one. -/
theorem le_getLast {m : OrdMap κ ν} {e : κ × ν} (h : m.entries.getLast? = some e) :
    ∀ e' ∈ m.entries, e'.1 ≤ e.1 := by
  obtain ⟨before, hentries⟩ := List.getLast?_eq_some_iff.mp h
  have hsorted := m.sorted
  intro e' he'
  rw [hentries] at hsorted he'
  cases List.mem_append.mp he' with
  | inl hbefore =>
    exact ((List.pairwise_append.mp hsorted).2.2 e' hbefore e List.mem_cons_self).le
  | inr hself => exact (List.mem_singleton.mp hself) ▸ le_rfl

/-- A search through the entries meets the lowest key first. -/
theorem le_of_find? {m : OrdMap κ ν} {p : κ × ν → Bool} {e : κ × ν}
    (h : m.entries.find? p = some e) {k : κ} {v : ν} (hget : m.get? k = some v) (hp : p (k, v)) :
    e.1 ≤ k := by
  obtain ⟨-, before, after, hentries, hbefore⟩ := List.find?_eq_some_iff_append.mp h
  have hsorted := m.sorted
  have hmem := get?_eq_some.mp hget
  rw [hentries] at hsorted hmem
  cases List.mem_append.mp hmem with
  | inl hmem => exact absurd hp (by simpa using hbefore _ hmem)
  | inr hmem =>
    cases List.mem_cons.mp hmem with
    | inl hself => exact hself ▸ le_rfl
    | inr hmem =>
      exact ((List.pairwise_cons.mp (List.pairwise_append.mp hsorted).2.1).1 _ hmem).le

theorem mem_keys {m : OrdMap κ ν} {k : κ} : k ∈ m.keys ↔ ∃ v, m.get? k = some v := by
  simp [keys, get?_eq_some]

theorem mem_keys_foldl_insertNew {ι : Type*} (key : ι → κ) (val : ι → ν) (l : List ι) {k : κ} :
    k ∈ (l.foldl (fun m a => m.insertNew (key a) (val a)) empty).keys ↔ k ∈ l.map key := by
  rw [mem_keys, get?_foldl_insertNew, get?_empty, Option.none_or]
  cases hfind : l.find? fun a => key a = k with
  | none =>
    have hnone := List.find?_eq_none.mp hfind
    simpa using hnone
  | some a =>
    have hkey : key a = k := by simpa using List.find?_some hfind
    simpa using ⟨a, List.mem_of_find?_eq_some hfind, hkey⟩

theorem mem_keys_set {m : OrdMap κ ν} {k k' : κ} {v : ν} :
    k' ∈ (m.set k v).keys ↔ k' = k ∨ k' ∈ m.keys := by
  by_cases h : k' = k <;> simp [mem_keys, get?_set, h]

theorem mem_keys_insertNew {m : OrdMap κ ν} {k k' : κ} {v : ν} :
    k' ∈ (m.insertNew k v).keys ↔ k' = k ∨ k' ∈ m.keys := by
  rw [mem_keys, get?_insertNew, mem_keys]
  by_cases hk : k' = k
  · cases m.get? k' <;> simp [hk]
  · simp [hk]

theorem insertNew_of_mem {m : OrdMap κ ν} {k : κ} (h : k ∈ m.keys) (v : ν) :
    m.insertNew k v = m := by
  obtain ⟨w, hw⟩ := mem_keys.mp h
  rw [insertNew, hw]
  rfl

theorem entries_insertNew_perm {m : OrdMap κ ν} {k : κ} (h : k ∉ m.keys) (v : ν) :
    (m.insertNew k v).entries.Perm ((k, v) :: m.entries) := by
  have hnone : ¬ (m.get? k).isSome := by
    intro hsome
    exact h (mem_keys.mpr (Option.isSome_iff_exists.mp hsome))
  rw [insertNew, if_neg hnone]
  exact Entries.insert_perm h v

theorem keys_nodup (m : OrdMap κ ν) : m.keys.Nodup :=
  (List.pairwise_map.mpr m.sorted).imp ne_of_lt

theorem mem_keys_filterKeys {m : OrdMap κ ν} {kept : κ → Bool} {k : κ} :
    k ∈ (m.filterKeys kept).keys ↔ k ∈ m.keys ∧ kept k := by
  simp only [filterKeys, keys, List.mem_map, List.mem_filter]
  constructor
  · intro ⟨e, ⟨he, hkept⟩, heq⟩
    exact ⟨⟨e, he, heq⟩, heq ▸ hkept⟩
  · intro ⟨⟨e, he, heq⟩, hkept⟩
    exact ⟨e, ⟨he, heq ▸ hkept⟩, heq⟩

theorem get?_filterKeys {m : OrdMap κ ν} {kept : κ → Bool} {k : κ} :
    (m.filterKeys kept).get? k = if kept k then m.get? k else none := by
  refine Option.ext fun v => ?_
  rw [get?_eq_some, filterKeys]
  simp only [List.mem_filter]
  split_ifs with hkept
  · rw [get?_eq_some, and_iff_left hkept]
  · simp [hkept]

/-- Equal lookups make equal maps. -/
theorem ext_get? {m m' : OrdMap κ ν} (h : ∀ k, m.get? k = m'.get? k) : m = m' := by
  obtain ⟨es, hs⟩ := m
  obtain ⟨es', hs'⟩ := m'
  have hmem : ∀ e, e ∈ es ↔ e ∈ es' := by
    rintro ⟨k, v⟩
    rw [← Entries.lookup_eq_some hs, ← Entries.lookup_eq_some hs']
    exact Eq.congr_left (h k)
  have hperm : es.Perm es' :=
    (List.perm_ext_iff_of_nodup (hs.imp fun hlt he => absurd (congrArg Prod.fst he) hlt.ne)
      (hs'.imp fun hlt he => absurd (congrArg Prod.fst he) hlt.ne)).mpr hmem
  have heq : es = es' :=
    hperm.eq_of_pairwise (fun a b _ _ hab hba => absurd hab hba.asymm) hs hs'
  subst heq
  rfl

/-- Maps with the same keys run through them in the same order. -/
theorem keys_eq {ν' : Type*} {m : OrdMap κ ν} {m' : OrdMap κ ν'}
    (h : ∀ k, k ∈ m.keys ↔ k ∈ m'.keys) : m.keys = m'.keys := by
  have hperm : m.keys.Perm m'.keys :=
    (List.perm_ext_iff_of_nodup m.keys_nodup m'.keys_nodup).mpr h
  exact hperm.eq_of_pairwise (fun a b _ _ hab hba => absurd hab hba.asymm)
    (List.pairwise_map.mpr m.sorted) (List.pairwise_map.mpr m'.sorted)

section Fill
universe u
variable {κ ν : Type u} [LinearOrder κ] {ι : Type*} {key : ι → κ} {f : ι → Outcome ν}

/-- A map filled with what a call computes for each key. -/
def fill (key : ι → κ) (f : ι → Outcome ν) (l : List ι) (m : OrdMap κ ν) : Outcome (OrdMap κ ν) :=
  l.foldlM (fun m a => do
    let v ← f a
    return m.set (key a) v) m

/-- The calls all return, and the last one for a key gives its value. -/
theorem fill_spec {l : List ι} : ∀ {m m' : OrdMap κ ν}, fill key f l m = .ok m' →
    (∀ a ∈ l, ∃ v, f a = .ok v) ∧
      ∀ k, (∃ a ∈ l, key a = k ∧ ∃ v, f a = .ok v ∧ m'.get? k = some v) ∨
        k ∉ l.map key ∧ m'.get? k = m.get? k := by
  induction l with
  | nil =>
    intro m m' h
    rw [Outcome.ok.inj h]
    simp
  | cons a l ih =>
    intro m m' h
    obtain ⟨m₁, hm₁, hrest⟩ := Outcome.bind_eq_ok.mp h
    obtain ⟨v, hv, hset⟩ := Outcome.bind_eq_ok.mp hm₁
    obtain rfl := Outcome.ok.inj hset
    obtain ⟨hcalls, hvalues⟩ := ih hrest
    refine ⟨List.forall_mem_cons.mpr ⟨⟨v, hv⟩, hcalls⟩, fun k => ?_⟩
    cases hvalues k with
    | inl hlater =>
      obtain ⟨b, hb, hkey, hvalue⟩ := hlater
      exact .inl ⟨b, List.mem_cons_of_mem a hb, hkey, hvalue⟩
    | inr hkept =>
      by_cases hk : k = key a
      · refine .inl ⟨a, List.mem_cons_self, hk.symm, v, hv, ?_⟩
        rw [hkept.2, get?_set, if_pos hk]
      · refine .inr ⟨?_, by rw [hkept.2, get?_set, if_neg hk]⟩
        simpa [hk] using hkept.1

theorem fill_returns {l : List ι} (h : ∀ a ∈ l, ∃ v, f a = .ok v) (m : OrdMap κ ν) :
    ∃ m', fill key f l m = .ok m' := by
  refine Outcome.foldlM_returns (fun m a ha => ?_) m
  obtain ⟨v, hv⟩ := h a ha
  exact ⟨m.set (key a) v, by rw [hv]; rfl⟩

end Fill

end OrdMap
end ReadexPtf
