import ReadexPtf.TuningModel.Entities

/-! The `std::hash` specialisations of configurations and rtsids. Both hash what they
iterate over in iteration order, which equal objects need not share. -/
namespace ReadexPtf.TuningModel
open ReadexPtf

/-- `boost::hash_combine` and `boost::hash_value` of strings and integers. -/
structure Boost where
  hash_combine : UInt64 → UInt64 → UInt64
  hash_string : String → UInt64
  hash_int : Int → UInt64

section Hash
variable (H : Boost)

/-- The seed after one more tuning value. -/
def combineValue (seed : UInt64) (tv : String × Int) : UInt64 :=
  H.hash_combine (H.hash_combine seed (H.hash_string tv.1)) (H.hash_int tv.2)

def Configuration.hash (c : Configuration) : UInt64 := c.iterated.foldl (combineValue H) 0

def Rtsid.hash (id : Rtsid) : UInt64 :=
  let seed := H.hash_combine 0 (H.hash_string id.callpath.debug_string)
  let seed := H.hash_combine seed (H.hash_string id.region.debug_string)
  H.hash_combine seed (H.hash_string id.iid.debug_string)

end Hash

/-- Equal keys of `K` have equal hashes, and no hash table filled with keys of `K` holds
two equal ones. -/
structure HashLaw {α : Type} (hash : Boost → α → UInt64) (equal : α → α → Bool) (K : Set α) :
    Prop where
  same : ∀ H, ∀ a ∈ K, ∀ b ∈ K, equal a b = true → hash H a = hash H b
  table : ∀ H ks, (∀ k ∈ ks, k ∈ K) →
    (insertKeys (hash H) equal ks).Pairwise fun a b => ¬ equal a b = true

theorem hashLaw_of_same {α : Type} {hash : Boost → α → UInt64} {equal : α → α → Bool} {K : Set α}
    (h : ∀ H, ∀ a ∈ K, ∀ b ∈ K, equal a b = true → hash H a = hash H b) :
    HashLaw hash equal K :=
  ⟨h, fun H _ hks => pairwise_insertKeys (h H) hks⟩

/-- Two different lists of one length differ in a first place. -/
theorem exists_first_difference {α : Type} : ∀ {xs ys : List α}, xs.length = ys.length → xs ≠ ys →
    ∃ p a b xs' ys', a ≠ b ∧ xs = p ++ a :: xs' ∧ ys = p ++ b :: ys' := by
  intro xs
  induction xs with
  | nil =>
    intro ys hlen hne
    exact absurd (List.length_eq_zero_iff.mp hlen.symm).symm hne
  | cons x xs ih =>
    intro ys hlen hne
    cases ys with
    | nil => simp at hlen
    | cons y ys =>
      by_cases hxy : x = y
      · have hrest : xs ≠ ys := fun heq => hne (by rw [hxy, heq])
        obtain ⟨p, a, b, xs', ys', hab, hxs, hys⟩ := ih (Nat.succ.inj hlen) hrest
        exact ⟨x :: p, a, b, xs', ys', hab, by rw [hxs]; rfl, by rw [hys, hxy]; rfl⟩
      · exact ⟨[], x, y, xs, ys, hxy, rfl, rfl⟩

section Separation

/-- The first value that does not hash to zero decides. -/
def firstNonzero (hash_string : String → UInt64) : Boost where
  hash_combine := fun seed v => if seed = 0 then v else seed
  hash_string
  hash_int := fun _ => 0

variable {hash_string : String → UInt64}

theorem foldl_firstNonzero_of_ne {seed : UInt64} (hseed : seed ≠ 0) (l : List (String × Int)) :
    l.foldl (combineValue (firstNonzero hash_string)) seed = seed := by
  induction l with
  | nil => rfl
  | cons tv l ih =>
    have hstep : combineValue (firstNonzero hash_string) seed tv = seed := by
      simp [combineValue, firstNonzero, hseed]
    rw [List.foldl_cons, hstep, ih]

theorem foldl_firstNonzero {p l : List (String × Int)} {tv : String × Int}
    (hp : ∀ e ∈ p, hash_string e.1 = 0) (htv : hash_string tv.1 ≠ 0) :
    (p ++ tv :: l).foldl (combineValue (firstNonzero hash_string)) 0 = hash_string tv.1 := by
  induction p with
  | nil =>
    have hstep : combineValue (firstNonzero hash_string) 0 tv = hash_string tv.1 := by
      simp [combineValue, firstNonzero, htv]
    rw [List.nil_append, List.foldl_cons, hstep, foldl_firstNonzero_of_ne htv]
  | cons e p ih =>
    obtain ⟨he, hp⟩ := List.forall_mem_cons.mp hp
    have hstep : combineValue (firstNonzero hash_string) 0 e = 0 := by
      simp [combineValue, firstNonzero, he]
    rw [List.cons_append, List.foldl_cons, hstep, ih hp]

end Separation

/-- Some hash tells two iteration orders of the same values apart. -/
theorem exists_hash_ne {a b : Configuration} (hperm : a.iterated.Perm b.iterated)
    (hne : a.iterated ≠ b.iterated) : ∃ H, a.hash H ≠ b.hash H := by
  obtain ⟨p, x, y, xs, ys, hxy, ha, hb⟩ := exists_first_difference hperm.length_eq hne
  have hx : x ∈ a.iterated := by simp [ha]
  have hy : y ∈ a.iterated := hperm.mem_iff.mpr (by simp [hb])
  have hnames : x.1 ≠ y.1 := fun heq => hxy (List.inj_on_of_nodup_map a.names_nodup hx hy heq)
  have hafter : ∀ {z : String × Int} {l zs : List (String × Int)} {c : Configuration},
      c.iterated = l ++ z :: zs → ∀ e ∈ l, e.1 ≠ z.1 := by
    intro z l zs c hc e he
    have hnodup := c.names_nodup
    rw [hc, List.map_append, List.map_cons, List.nodup_append] at hnodup
    exact hnodup.2.2 e.1 (List.mem_map_of_mem he) z.1 List.mem_cons_self
  have hzero : ∀ e ∈ p, (if e.1 = x.1 then (1 : UInt64) else if e.1 = y.1 then 2 else 0) = 0 := by
    intro e he
    rw [if_neg (hafter ha e he), if_neg (hafter hb e he)]
  refine ⟨firstNonzero fun s => if s = x.1 then 1 else if s = y.1 then 2 else 0, ?_⟩
  rw [Configuration.hash, Configuration.hash, ha, hb, foldl_firstNonzero hzero (by simp),
    foldl_firstNonzero hzero (by simp [hnames.symm]), if_pos rfl, if_neg hnames.symm, if_pos rfl]
  decide

/-- Some hash tells apart two rtsids whose call paths or identifiers are printed differently. -/
theorem printed_eq_of_hash_eq {a b : Rtsid} (h : ∀ H, a.hash H = b.hash H) :
    a.callpath.debug_string = b.callpath.debug_string ∧
      a.iid.debug_string = b.iid.debug_string := by
  constructor
  · by_contra hne
    have hfirst := h (firstNonzero fun s => if s = a.callpath.debug_string then 1 else 2)
    simp [Rtsid.hash, firstNonzero, Ne.symm hne] at hfirst
  · by_contra hne
    have hlast := h ⟨fun _ v => v, fun s => if s = a.iid.debug_string then 1 else 2, fun _ => 0⟩
    simp [Rtsid.hash, Ne.symm hne] at hlast

/-- The hash law holds exactly where equal configurations are iterated in one order, and
where equal rtsids are printed the same way. -/
theorem hashLaw_iff (K : Set Configuration) (K' : Set Rtsid) :
    (HashLaw (fun H c => c.hash H) Configuration.equal K ↔
      ∀ a ∈ K, ∀ b ∈ K, a.equal b = true → a.iterated = b.iterated) ∧
    (HashLaw (fun H id => id.hash H) Rtsid.equal K' ↔
      ∀ a ∈ K', ∀ b ∈ K', a.equal b = true →
        a.callpath.debug_string = b.callpath.debug_string ∧
        a.iid.debug_string = b.iid.debug_string) := by
  constructor
  · constructor
    · intro hlaw a ha b hb hequal
      by_contra hne
      obtain ⟨H, hH⟩ := exists_hash_ne (Configuration.equal_iff_perm.mp hequal) hne
      exact hH (hlaw.same H a ha b hb hequal)
    · intro hsame
      apply hashLaw_of_same
      intro H a ha b hb hequal
      simp only [Configuration.hash, hsame a ha b hb hequal]
  · constructor
    · intro hlaw a ha b hb hequal
      exact printed_eq_of_hash_eq fun H => hlaw.same H a ha b hb hequal
    · intro hsame
      apply hashLaw_of_same
      intro H a ha b hb hequal
      obtain ⟨hcallpath, hiid⟩ := hsame a ha b hb hequal
      have hregion : a.region = b.region := by
        simp only [Rtsid.equal, Bool.and_eq_true, decide_eq_true_eq] at hequal
        exact hequal.1.2
      simp only [Rtsid.hash, hcallpath, hiid, hregion]

/-- `hash_combine` and the hashes of strings and integers as Boost documents them. -/
def documentedBoost : Boost where
  hash_combine := combine
  hash_string := fun s => s.toList.foldl (fun seed c => combine seed (UInt64.ofNat c.toNat)) 0
  hash_int := fun v => UInt64.ofInt v
where
  combine (seed v : UInt64) : UInt64 :=
    seed ^^^ (v + (0x9e3779b9 : UInt64) + (seed <<< (6 : UInt64)) + (seed >>> (2 : UInt64)))

def tenValue (name : String) (value : Int) (h : FitsInt value) : TuningValue :=
  ⟨tenSteps name, value, h, by simpa [tenSteps] using h⟩

/-- One configuration, iterated in two orders: a table keeps it twice. -/
theorem hash_depends_on_order :
    let p := tenValue "p" 1 (by decide)
    let q := tenValue "q" 2 (by decide)
    let a : Configuration := ⟨[p, q], by decide⟩
    let b : Configuration := ⟨[q, p], by decide⟩
    a.equal b = true ∧ a.hash documentedBoost ≠ b.hash documentedBoost ∧
      (insertKeys (fun c => c.hash documentedBoost) Configuration.equal [a, b]).length = 2 := by
  decide

end ReadexPtf.TuningModel
