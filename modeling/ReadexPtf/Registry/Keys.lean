import ReadexPtf.Registry.Changes

/-! The keys of an entry, and what a search for some of them finds. -/
namespace ReadexPtf.Registry

inductive Key where
  | app
  | site
  | mach
  | node
  | port
  | pid
  | comp
  | tag
  deriving DecidableEq, Repr

namespace Key

def all : List Key := [app, site, mach, node, port, pid, comp, tag]

def name : Key → Text
  | app => "app".toList
  | site => "site".toList
  | mach => "mach".toList
  | node => "node".toList
  | port => "port".toList
  | pid => "pid".toList
  | comp => "comp".toList
  | tag => "tag".toList

/-- The value that a command line gives the key. -/
def read (val : Text) : Key → Value
  | port => .number (atoi (String.ofList val))
  | pid => .number (atoi (String.ofList val))
  | _ => .text val

end Key

def keyOf (name : Text) : Option Key := Key.all.find? fun key => key.name = name

theorem keyOf_name (key : Key) : keyOf key.name = some key := by
  cases key <;> decide

theorem name_of_keyOf {name : Text} {key : Key} (h : keyOf name = some key) : key.name = name := by
  simpa using List.find?_some h

/-- What a search takes for nothing. -/
def emptyValue : Value → Bool
  | .number v => v = 0
  | .text t => t = []

namespace RegEntry

def get (entry : RegEntry ℤ) : Key → Value
  | .app => .text entry.app
  | .site => .text entry.site
  | .mach => .text entry.mach
  | .node => .text entry.node
  | .port => .number entry.port
  | .pid => .number entry.pid
  | .comp => .text entry.comp
  | .tag => .text entry.tag

def put (entry : RegEntry ℤ) (val : Text) : Key → RegEntry ℤ
  | .app => { entry with app := val }
  | .site => { entry with site := val }
  | .mach => { entry with mach := val }
  | .node => { entry with node := val }
  | .port => { entry with port := atoi (String.ofList val) }
  | .pid => { entry with pid := atoi (String.ofList val) }
  | .comp => { entry with comp := val }
  | .tag => { entry with tag := val }

theorem get_put (entry : RegEntry ℤ) (val : Text) (key key' : Key) :
    (entry.put val key).get key' = if key' = key then key.read val else entry.get key' := by
  cases key <;> cases key' <;> rfl

theorem matched_iff {query entry : RegEntry ℤ} :
    query.matched entry = true ↔
      ∀ key, emptyValue (query.get key) = true ∨ query.get key = entry.get key := by
  constructor
  · intro h key
    simp only [matched, Bool.and_eq_true, Bool.or_eq_true, decide_eq_true_eq] at h
    cases key <;> simp only [get, emptyValue, decide_eq_true_eq, Value.text.injEq,
      Value.number.injEq, h]
  · intro h
    simp only [matched, Bool.and_eq_true, Bool.or_eq_true, decide_eq_true_eq]
    have happ := h .app
    have hsite := h .site
    have hmach := h .mach
    have hnode := h .node
    have hport := h .port
    have hpid := h .pid
    have hcomp := h .comp
    have htag := h .tag
    simp only [get, emptyValue, decide_eq_true_eq, Value.text.injEq, Value.number.injEq] at *
    exact ⟨⟨⟨⟨⟨⟨⟨happ, hsite⟩, hmach⟩, hnode⟩, hport⟩, hpid⟩, hcomp⟩, htag⟩

theorem assign_eq (entry : RegEntry ℤ) (pair : Text × Text) : entry.assign id pair =
    if pair.1 = [] then some entry else (keyOf pair.1).map (entry.put pair.2) := by
  have hput : ∀ key : Key, pair.1 = key.name →
      some (entry.put pair.2 key) = (keyOf pair.1).map (entry.put pair.2) := by
    intro key hname
    rw [hname, keyOf_name, Option.map_some]
  rw [assign]
  split_ifs with hnil happ hsite hmach hnode hport hpid hcomp htag
  · rfl
  · exact hput .app happ
  · exact hput .site hsite
  · exact hput .mach hmach
  · exact hput .node hnode
  · exact hput .port hport
  · exact hput .pid hpid
  · exact hput .comp hcomp
  · exact hput .tag htag
  · have hother : ∀ key : Key, pair.1 ≠ key.name := by
      intro key
      cases key
      exacts [happ, hsite, hmach, hnode, hport, hpid, hcomp, htag]
    have hnone : keyOf pair.1 = none :=
      List.find?_eq_none.mpr fun key _ => by simpa using (hother key).symm
    rw [hnone, Option.map_none]

theorem assign_cases {entry entry' : RegEntry ℤ} {pair : Text × Text}
    (h : entry.assign id pair = some entry') :
    (pair.1 = [] ∧ entry' = entry) ∨
      ∃ key, pair.1 ≠ [] ∧ keyOf pair.1 = some key ∧ entry' = entry.put pair.2 key := by
  rw [assign_eq] at h
  split_ifs at h with hnil
  · exact .inl ⟨hnil, (Option.some.inj h).symm⟩
  · obtain ⟨key, hkey, hput⟩ := Option.map_eq_some_iff.mp h
    exact .inr ⟨key, hnil, hkey, hput.symm⟩

/-- The entry has what the pair says. -/
def Agrees (entry : RegEntry ℤ) (pair : Text × Text) : Prop :=
  pair.1 = [] ∨ ∃ key, keyOf pair.1 = some key ∧ entry.get key = key.read pair.2

end RegEntry

/-! A search for the pairs of a line. -/

/-- The pair does not ask for anything. -/
def emptyPair (pair : Text × Text) : Bool :=
  (keyOf pair.1).all fun key => emptyValue (key.read pair.2)

/-- The pairs that a search does not ask for: what is given again later, and what is empty or zero. -/
def overlooked : List (Text × Text) → List (Text × Text)
  | [] => []
  | pair :: pairs =>
    if pairs.any (fun later => later.1 = pair.1) || emptyPair pair then pair :: overlooked pairs
    else overlooked pairs

theorem assignAll_cons {entry entry' : RegEntry ℤ} {pair : Text × Text}
    {pairs : List (Text × Text)} : entry.assignAll id (pair :: pairs) = some entry' ↔
      ∃ next, entry.assign id pair = some next ∧ next.assignAll id pairs = some entry' := by
  rw [RegEntry.assignAll, List.foldlM_cons]
  exact Option.bind_eq_some_iff

/-- A key that no pair gives keeps its value. -/
theorem get_assignAll_of_notMem {pairs : List (Text × Text)} {key : Key} :
    ∀ {entry entry' : RegEntry ℤ}, entry.assignAll id pairs = some entry' →
      (∀ pair ∈ pairs, pair.1 ≠ key.name) → entry'.get key = entry.get key := by
  induction pairs with
  | nil =>
    intro entry entry' h _
    rw [← Option.some.inj h]
  | cons pair pairs ih =>
    intro entry entry' h hother
    obtain ⟨next, hnext, hrest⟩ := assignAll_cons.mp h
    obtain ⟨hpair, hpairs⟩ := List.forall_mem_cons.mp hother
    rw [ih hrest hpairs]
    cases RegEntry.assign_cases hnext with
    | inl hsame => rw [hsame.2]
    | inr hput =>
      obtain ⟨key', _, hkey', rfl⟩ := hput
      have hne : key ≠ key' := fun heq => hpair (heq ▸ name_of_keyOf hkey').symm
      rw [RegEntry.get_put, if_neg hne]

/-- What a query has is nothing, or a pair has given it. -/
theorem get_assignAll {pairs : List (Text × Text)} {key : Key} :
    ∀ {entry entry' : RegEntry ℤ}, entry.assignAll id pairs = some entry' →
      entry'.get key = entry.get key ∨
        ∃ pair ∈ pairs, pair.1 = key.name ∧ entry'.get key = key.read pair.2 := by
  induction pairs with
  | nil =>
    intro entry entry' h
    rw [← Option.some.inj h]
    exact .inl rfl
  | cons pair pairs ih =>
    intro entry entry' h
    obtain ⟨next, hnext, hrest⟩ := assignAll_cons.mp h
    cases ih hrest with
    | inr hlater =>
      obtain ⟨later, hmem, hlater⟩ := hlater
      exact .inr ⟨later, List.mem_cons_of_mem pair hmem, hlater⟩
    | inl hkept =>
      cases RegEntry.assign_cases hnext with
      | inl hsame => exact .inl (hsame.2 ▸ hkept)
      | inr hput =>
        obtain ⟨key', _, hkey', rfl⟩ := hput
        rw [RegEntry.get_put] at hkept
        split_ifs at hkept with hkey
        · rw [← hkey] at hkey' hkept
          exact .inr ⟨pair, List.mem_cons_self, (name_of_keyOf hkey').symm, hkept⟩
        · exact .inl hkept

/-- A matched entry agrees with every pair that has been asked for. -/
theorem agrees_of_matched {entry : RegEntry ℤ} {pairs : List (Text × Text)} :
    ∀ {query query' : RegEntry ℤ}, query.assignAll id pairs = some query' →
      query'.matched entry = true → ∀ pair ∈ pairs, pair ∉ overlooked pairs →
      entry.Agrees pair := by
  induction pairs with
  | nil =>
    intro query query' _ _ pair hpair
    cases hpair
  | cons first pairs ih =>
    intro query query' h hmatched pair hpair hasked
    obtain ⟨next, hnext, hrest⟩ := assignAll_cons.mp h
    rw [overlooked] at hasked
    cases List.mem_cons.mp hpair with
    | inr hlater =>
      refine ih hrest hmatched pair hlater fun hmem => hasked ?_
      split_ifs
      · exact List.mem_cons_of_mem first hmem
      · exact hmem
    | inl hself =>
      subst hself
      split_ifs at hasked with hover
      · exact absurd List.mem_cons_self hasked
      · cases RegEntry.assign_cases hnext with
        | inl hsame => exact .inl hsame.1
        | inr hput =>
          -- The last pair of its key gives the query its value.
          obtain ⟨key, _, hkey, rfl⟩ := hput
          simp only [Bool.or_eq_true, List.any_eq_true, decide_eq_true_eq, not_or, not_exists,
            not_and, emptyPair, hkey, Option.all_some] at hover
          have hlast : query'.get key = key.read pair.2 := by
            rw [get_assignAll_of_notMem hrest fun later hmem => ?_, RegEntry.get_put, if_pos rfl]
            rw [name_of_keyOf hkey]
            exact hover.1 later hmem
          cases RegEntry.matched_iff.mp hmatched key with
          | inl hempty => exact absurd (hlast ▸ hempty) hover.2
          | inr heq => exact .inr ⟨key, hkey, heq.symm.trans hlast⟩

/-- A search finds what agrees with all pairs, where the pairs it overlooks do. -/
theorem matched_iff_agrees {entry query : RegEntry ℤ} {pos : Option Text}
    (h : RegServ.searched pos = some query)
    (hover : query.matched entry = true → ∀ pair ∈ overlooked (keyValuePairs id pos),
      entry.Agrees pair) :
    query.matched entry = true ↔ ∀ pair ∈ keyValuePairs id pos, entry.Agrees pair := by
  constructor
  · intro hmatched pair hpair
    by_cases hmem : pair ∈ overlooked (keyValuePairs id pos)
    · exact hover hmatched pair hmem
    · exact agrees_of_matched h hmatched pair hpair hmem
  · intro hagrees
    refine RegEntry.matched_iff.mpr fun key => ?_
    cases get_assignAll h with
    | inl hkept =>
      rw [hkept]
      cases key <;> exact .inl rfl
    | inr hgiven =>
      obtain ⟨pair, hpair, hname, hvalue⟩ := hgiven
      cases hagrees pair hpair with
      | inl hnil =>
        rw [hname] at hnil
        cases key <;> exact absurd hnil (by decide)
      | inr hagree =>
        obtain ⟨key', hkey', hget⟩ := hagree
        rw [hname, keyOf_name] at hkey'
        cases hkey'
        exact .inr (hvalue.trans hget.symm)

end ReadexPtf.Registry
