import ReadexPtf.Agents.Application
import ReadexPtf.Agents.MetaProperty
import ReadexPtf.Registry.Tokens

/-! The name of a region that a property reads from the id of the region, in which file, name
and line stand behind each other. -/
namespace ReadexPtf.Agents
open ReadexPtf Registry

/-- `while( pos != npos )` over the tokens of a text. A round reads at least one character. -/
def tokensFrom (delim : Text) : ℕ → Text → List Text
  | 0, _ => []
  | rounds + 1, rest =>
    let (token, next) := getToken delim rest
    match next with
    | none => [token]
    | some rest => token :: tokensFrom delim rounds rest

/-- The tokens from `tokens[1]` to the last but one, with the separators that they have lost. -/
def rejoined : List Text → Text
  | _ :: name :: rest => rest.dropLast.foldl (fun name token => name ++ '*' :: token) name
  | _ => []

/-- A null pointer is no string. -/
def MetaProperty.getRegionName {V : Type} (prop : MetaProperty V) : Outcome String :=
  let tokens := tokensFrom ['*'] (prop.regionId.toList.length + 1) prop.regionId.toList
  if tokens.length < 3 then .undefined
  else .ok (.ofList (rejoined tokens))

def MetaProperty.getRFL {V : Type} (prop : MetaProperty V) : ℤ := prop.startLine

def MetaProperty.setFileName {V : Type} (fileName : String) (prop : MetaProperty V) :
    MetaProperty V := { prop with fileName }

def MetaProperty.setStartPosition {V : Type} (startLine : ℤ) (prop : MetaProperty V) :
    MetaProperty V := { prop with startLine }

/-- A property whose context was read: file, line and id of its region. -/
def MetaProperty.withRegion {V RegionType : Type} (region : Region RegionType)
    (prop : MetaProperty V) : MetaProperty V :=
  ((prop.setFileName region.fileName).setStartPosition region.regionFirstLine).setRegionId
    region.getRegionID

section Runs
variable {separator : Char}

/-- The parts of a text between its separators that are not empty. -/
def runs (separator : Char) (text : Text) : List Text :=
  (text.splitOn separator).filter fun run => !run.isEmpty

theorem runs_append (a b : Text) :
    runs separator (a ++ separator :: b) = runs separator a ++ runs separator b := by
  rw [runs, List.splitOn_append_cons_self, List.filter_append]
  rfl

theorem runs_of_not_mem {run : Text} (hnot : separator ∉ run) (hne : run ≠ []) :
    runs separator run = [run] := by
  rw [runs, List.splitOn_eq_singleton hnot]
  simp [hne]

theorem runs_separators {text : Text} (h : ∀ c ∈ text, c = separator) (rest : Text) :
    runs separator (text ++ rest) = runs separator rest := by
  induction text with
  | nil => rfl
  | cons c text ih =>
    have hc := h c List.mem_cons_self
    have happend : runs separator (separator :: (text ++ rest)) =
        runs separator [] ++ runs separator (text ++ rest) := runs_append [] (text ++ rest)
    rw [List.cons_append, hc, happend, ih fun d hd => h d (List.mem_cons_of_mem c hd)]
    rfl

theorem mem_runs {text run : Text} :
    run ∈ runs separator text ↔ run ∈ text.splitOn separator ∧ run ≠ [] := by
  rw [runs, List.mem_filter, Bool.not_eq_true', List.isEmpty_eq_false_iff]

/-- A token lies behind separators and before the next one. -/
theorem getToken_cases {text : Text} (hsome : ∃ c ∈ text, c ≠ separator) :
    ∃ skipped token, (∀ c ∈ skipped, c = separator) ∧ separator ∉ token ∧ token ≠ [] ∧
      ((text = skipped ++ token ∧ getToken [separator] text = (token, none)) ∨
        ∃ rest, text = skipped ++ (token ++ separator :: rest) ∧
          getToken [separator] text = (token, some (separator :: rest))) := by
  have hcontains : [separator].contains = fun c => c == separator := by
    funext c
    rw [List.contains_cons, List.contains_nil, Bool.or_false]
  rw [getToken, hcontains]
  cases stop_cases (fun c => c == separator) text with
  | inl hall =>
    obtain ⟨c, hc, hne⟩ := hsome
    exact absurd (beq_iff_eq.mp (hall c hc)) hne
  | inr hbody =>
    obtain ⟨skipped, b, bs, rfl, hskipped, hb⟩ := hbody
    rw [dropWhile_append_stop hskipped hb]
    refine ⟨skipped, ?_⟩
    cases stop_cases (fun c => !(c == separator)) (b :: bs) with
    | inl hall =>
      have hend := List.dropWhile_eq_nil_iff.mpr hall
      refine ⟨b :: bs, by simpa using hskipped, fun hin => ?_, List.cons_ne_nil b bs, .inl ?_⟩
      · have htrue := hall separator hin
        simp at htrue
      · simp only [hend, and_self]
    | inr hrest =>
      obtain ⟨token, c, rest, htoken, hnot, hc⟩ := hrest
      have hsame : c = separator := by simpa using hc
      subst hsame
      refine ⟨token, by simpa using hskipped, fun hin => ?_, fun hempty => ?_, .inr ⟨rest, ?_⟩⟩
      · have htrue := hnot c hin
        simp at htrue
      · rw [hempty, List.nil_append, List.cons.injEq] at htoken
        rw [htoken.1, beq_self_eq_true] at hb
        cases hb
      · rw [htoken, dropWhile_append_stop hnot hc, takeWhile_append_stop hnot hc]
        exact ⟨rfl, rfl⟩

/-- The tokens of a text that does not end with a separator. -/
theorem tokensFrom_eq_runs : ∀ (rounds : ℕ) (text : Text) (last : Char), text.length < rounds →
    text.getLast? = some last → last ≠ separator →
    tokensFrom [separator] rounds text = runs separator text := by
  intro rounds
  induction rounds with
  | zero => exact fun _ _ hlength => absurd hlength (Nat.not_lt_zero _)
  | succ rounds ih =>
    intro text last hlength hlast hne
    obtain ⟨skipped, token, hskipped, hnot, htoken, hcases⟩ :=
      getToken_cases ⟨last, List.mem_of_getLast? hlast, hne⟩
    rw [tokensFrom]
    cases hcases with
    | inl hend =>
      obtain ⟨htext, hget⟩ := hend
      rw [hget, htext, runs_separators hskipped, runs_of_not_mem hnot htoken]
    | inr hmore =>
      obtain ⟨rest, htext, hget⟩ := hmore
      have hlengths : (separator :: rest).length < rounds := by
        have hpositive := List.length_pos_iff.mpr htoken
        rw [htext, List.length_append, List.length_append] at hlength
        omega
      have hrestLast : (separator :: rest).getLast? = some last := by
        rw [htext, ← List.append_assoc, List.getLast?_append] at hlast
        rwa [List.getLast?_cons, Option.some_or, ← List.getLast?_cons] at hlast
      rw [hget]
      dsimp only
      rw [ih (separator :: rest) last hlengths hrestLast hne, htext,
        runs_separators hskipped, runs_append, runs_of_not_mem hnot htoken]
      have hsame : runs separator (separator :: rest) =
          runs separator [] ++ runs separator rest := runs_append [] rest
      rw [hsame]
      rfl

/-- What is joined again is the text between its first and its last separators. -/
theorem intercalate_runs {text : Text} (h : [] ∉ text.splitOn separator) :
    [separator].intercalate (runs separator text) = text := by
  have hall : runs separator text = text.splitOn separator := by
    rw [runs, List.filter_eq_self]
    intro run hrun
    rw [Bool.not_eq_true', List.isEmpty_eq_false_iff]
    exact fun hempty => h (hempty ▸ hrun)
  rw [hall, List.intercalate_splitOn]

theorem runs_intercalate {tokens : List Text} (h : ∀ run ∈ tokens, separator ∉ run ∧ run ≠ []) :
    runs separator ([separator].intercalate tokens) = tokens := by
  cases tokens with
  | nil => rfl
  | cons token tokens =>
    rw [runs, List.splitOn_intercalate separator (fun run hrun => (h run hrun).1)
      (List.cons_ne_nil token tokens), List.filter_eq_self]
    intro run hrun
    rw [Bool.not_eq_true', List.isEmpty_eq_false_iff]
    exact (h run hrun).2

theorem notMem_of_mem_runs {text run : Text} (h : run ∈ runs separator text) :
    separator ∉ run ∧ run ≠ [] := by
  have hmem := mem_runs.mp h
  exact ⟨notMem_of_mem_splitOn hmem.1, hmem.2⟩

end Runs

theorem rejoined_append {tokens : List Text} (last : Text) (h : 2 ≤ tokens.length) :
    rejoined (tokens ++ [last]) = ['*'].intercalate tokens.tail := by
  cases tokens with
  | nil => cases h
  | cons first tokens =>
    cases tokens with
    | nil => cases h with | step h => cases h
    | cons name tokens =>
      have hlast : (tokens ++ [last]).dropLast = tokens := List.dropLast_concat
      rw [List.cons_append, List.cons_append, rejoined, hlast, foldl_separated, List.tail_cons]

/-- The tokens of a region id: those of the file, those of the name, and the line. -/
theorem tokensFrom_getRegionID {RegionType : Type} (region : Region RegionType) :
    tokensFrom ['*'] (region.getRegionID.toList.length + 1) region.getRegionID.toList =
      runs '*' region.fileName.toList ++ runs '*' region.name.toList ++ [decimal region.regionFirstLine] := by
  have hid : region.getRegionID.toList =
      region.fileName.toList ++ '*' :: (region.name.toList ++ '*' :: decimal region.regionFirstLine) := by
    simp [Region.getRegionID, Descriptor.regionID, Region.descriptor, decimal, toString]
  have hdecimal : ∀ c ∈ decimal region.regionFirstLine, c ≠ '*' := by
    intro c hc hstar
    cases of_mem_decimal hc with
    | inl hdigit =>
      rw [hstar] at hdigit
      cases hdigit
    | inr hminus =>
      rw [hstar] at hminus
      cases hminus
  have hlast := List.getLast?_eq_some_getLast (decimal_ne_nil region.regionFirstLine)
  have hend : region.getRegionID.toList.getLast? = (decimal region.regionFirstLine).getLast? := by
    rw [hid, List.getLast?_append, List.getLast?_cons, List.getLast?_append, List.getLast?_cons,
      hlast]
    rfl
  rw [tokensFrom_eq_runs _ _ _ (Nat.lt_succ_self _) (hend.trans hlast)
    (hdecimal _ (List.getLast_mem _)), hid, runs_append, runs_append,
    runs_of_not_mem (fun hin => hdecimal '*' hin rfl) (decimal_ne_nil region.regionFirstLine),
    List.append_assoc]

section RegionName
variable {V RegionType : Type} (region : Region RegionType) (prop : MetaProperty V)

theorem MetaProperty.withRegion_regionId :
    (prop.withRegion region).regionId = region.getRegionID := by
  have hne : region.getRegionID ≠ "" := by
    intro h
    have hlength := congrArg String.length h
    simp [Region.getRegionID, Descriptor.regionID] at hlength
  rw [MetaProperty.withRegion, MetaProperty.setRegionId_of_ne hne]

/-- The name that is read back is what is left of file and name behind the first run. -/
theorem MetaProperty.getRegionName_withRegion :
    (prop.withRegion region).getRegionName =
      let tokens := runs '*' region.fileName.toList ++ runs '*' region.name.toList
      if tokens.length < 2 then .undefined
      else .ok (.ofList (['*'].intercalate tokens.tail)) := by
  rw [MetaProperty.getRegionName, MetaProperty.withRegion_regionId, tokensFrom_getRegionID]
  dsimp only
  rw [List.length_append, List.length_singleton]
  by_cases hshort :
      (runs '*' region.fileName.toList ++ runs '*' region.name.toList).length < 2
  · rw [if_pos hshort, if_pos (by omega)]
  · rw [if_neg hshort, if_neg (by omega), rejoined_append _ (by omega)]

theorem MetaProperty.withRegion_position :
    (prop.withRegion region).fileName = region.fileName ∧
      (prop.withRegion region).getRFL = region.regionFirstLine := by
  unfold MetaProperty.withRegion MetaProperty.setRegionId
  split <;> exact ⟨rfl, rfl⟩

/-- File, name and line come back exactly if the file is one run of characters between
separators, and no separator stands at an end of the name or next to another. -/
theorem MetaProperty.withRegion_readsBack_iff :
    ((prop.withRegion region).getRegionName = .ok region.name ∧
        (prop.withRegion region).fileName = region.fileName ∧
        (prop.withRegion region).getRFL = region.regionFirstLine) ↔
      (runs '*' region.fileName.toList).length = 1 ∧ [] ∉ region.name.toList.splitOn '*' := by
  have hposition := MetaProperty.withRegion_position region prop
  rw [MetaProperty.getRegionName_withRegion]
  dsimp only
  constructor
  · intro h
    have hname := h.1
    split_ifs at hname with hshort
    have hjoined : ['*'].intercalate
        (runs '*' region.fileName.toList ++ runs '*' region.name.toList).tail =
          region.name.toList := by
      have hofList := congrArg String.toList (Outcome.ok.inj hname)
      rwa [String.toList_ofList] at hofList
    have htokens : ∀ run ∈
        (runs '*' region.fileName.toList ++ runs '*' region.name.toList).tail,
        '*' ∉ run ∧ run ≠ [] := by
      intro run hrun
      cases List.mem_append.mp (List.mem_of_mem_tail hrun) with
      | inl hfile => exact notMem_of_mem_runs hfile
      | inr hname => exact notMem_of_mem_runs hname
    have hlength := congrArg List.length (runs_intercalate htokens)
    rw [hjoined, List.length_tail, List.length_append] at hlength
    rw [List.length_append] at hshort
    refine ⟨by omega, fun hempty => ?_⟩
    have hne : (runs '*' region.fileName.toList ++ runs '*' region.name.toList).tail ≠ [] := by
      rw [← List.length_pos_iff, List.length_tail, List.length_append]
      omega
    rw [← hjoined, List.splitOn_intercalate '*' (fun run hrun => (htokens run hrun).1) hne]
      at hempty
    exact (htokens [] hempty).2 rfl
  · intro h
    obtain ⟨file, hfile⟩ := List.length_eq_one_iff.mp h.1
    have hjoined := intercalate_runs h.2
    have hruns : runs '*' region.name.toList ≠ [] := by
      intro hnone
      rw [hnone] at hjoined
      have hname : region.name.toList = [] := hjoined.symm
      rw [hname] at h
      exact h.2 (List.mem_singleton_self _)
    have hlength := List.length_pos_iff.mpr hruns
    rw [hfile, List.singleton_append, List.tail_cons, hjoined, List.length_cons,
      if_neg (by omega), String.ofList_toList]
    exact ⟨rfl, hposition⟩

end RegionName

/-- The name of `operator*` loses its separator. -/
theorem MetaProperty.not_withRegion_readsBack :
    ¬ ∀ (region : Region Unit) (prop : MetaProperty ℚ),
      (prop.withRegion region).getRegionName = .ok region.name ∧
        (prop.withRegion region).fileName = region.fileName ∧
        (prop.withRegion region).getRFL = region.regionFirstLine := by
  intro h
  have hname := (h ⟨1, (), 2, 12, 12, 20, "f.cc", "operator*"⟩ (.emptyProp 0)).1
  rw [MetaProperty.getRegionName_withRegion] at hname
  revert hname
  decide

end ReadexPtf.Agents
