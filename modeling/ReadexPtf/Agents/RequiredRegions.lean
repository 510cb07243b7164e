import ReadexPtf.Agents.ClusterProps
import ReadexPtf.Lib.Segments
import Mathlib

/-! The regions that merged properties name for the next experiment. -/
namespace ReadexPtf.Agents
open ReadexPtf
variable {V : Type}

/-- The entries of a text, as the front end reads them. -/
def regionEntries (text : String) : List (List Char) :=
  markedSegments ['f', ':', ' '] ';' text.toList

/-- The pieces by which a text is merged into another. They end with a line, the entries with a
semicolon. -/
def regionLines (text : String) : List (List Char) :=
  markedSegments ['f', ':', ' '] '\n' text.toList

section Purpose

/-- The text names just these entries, and each of them once. -/
def Collects (required : List Char → Prop) (text : String) : Prop :=
  (regionEntries text).Nodup ∧ ∀ entry, entry ∈ regionEntries text ↔ required entry

def requiredBy (group : MetaProperty V × List (MetaProperty V)) (entry : List Char) : Prop :=
  ∃ member ∈ group.1 :: group.2, entry ∈ regionEntries member.firstInfo

/-- A property that is merged from others has the entries of all of them. -/
def RegionsMerged (gatherproperties : Bool) (group : MetaProperty V × List (MetaProperty V))
    (prop : MetaProperty V) : Prop :=
  group.1.name = "Required regions in the next experiment" →
    gatherproperties = true ∨ group.2 ≠ [] → Collects (requiredBy group) prop.firstInfo

/-- The first property that is merged with the representative has all entries already, each
once, and the pieces of the representative occur in its text. Gathering keeps no entries. -/
def RegionsInFirst (gatherproperties : Bool)
    (group : MetaProperty V × List (MetaProperty V)) : Prop :=
  group.1.name = "Required regions in the next experiment" →
    if gatherproperties then
      ∀ member ∈ group.1 :: group.2, regionEntries member.firstInfo = []
    else ∀ first others, group.2 = first :: others →
      (regionEntries first.firstInfo).Nodup ∧
      (∀ member ∈ group.1 :: group.2,
        regionEntries member.firstInfo ⊆ regionEntries first.firstInfo) ∧
      ∀ line ∈ regionLines group.1.firstInfo,
        (findFrom line first.firstInfo.toList 0).isSome

end Purpose

section MergeStrings
variable {str1 : List Char}

def addLine (merged line : List Char) : List Char :=
  if (findFrom line merged 0).isNone then merged ++ line else merged

theorem mergeLines_none (rounds : ℕ) (stopFound : Bool) (merged : List Char) :
    mergeLines str1 rounds none stopFound merged = merged := by
  cases rounds <;> rfl

/-- Each round takes the next piece; one more round than there are characters is enough. -/
theorem mergeLines_eq {rounds pos : ℕ} (hrounds : str1.length < pos + rounds)
    (merged : List Char) :
    mergeLines str1 rounds (findFrom ['f', ':', ' '] str1 pos) true merged =
      (markedSegments ['f', ':', ' '] '\n' (str1.drop pos)).foldl addLine merged := by
  induction rounds generalizing pos merged with
  | zero =>
    rw [List.drop_eq_nil_of_le (by omega), markedSegments_nil]
    rfl
  | succ rounds ih =>
    have hmarked := markedFrom_drop (List.cons_ne_nil 'f' [':', ' ']) str1 pos
    rw [markedSegments_eq, hmarked]
    cases hstart : findFrom ['f', ':', ' '] str1 pos with
    | none => exact mergeLines_none _ _ _
    | some start =>
      rw [hstart] at hmarked
      have hprefix : ['f', ':', ' '] <+: str1.drop start := prefix_of_markedFrom hmarked
      have hpos := (findFrom_eq_some.mp hstart).2.1
      rw [Option.map_some, Option.map_some, Option.getD_some, mergeLines]
      simp only [not_true_eq_false, if_false]
      cases hstop : findFrom ['\n'] str1 start with
      | none =>
        rw [markedSegments_singleton (findFrom_char_none hstop) hprefix]
        exact mergeLines_none _ _ _
      | some stop =>
        obtain ⟨hle, hplain, rest, hrest⟩ := findFrom_char_some hstop
        have hsplit := drop_eq_take_append str1 hle
        obtain ⟨line, hline⟩ : ∃ line, line = (str1.drop start).take (stop - start) := ⟨_, rfl⟩
        rw [← hline] at hplain hsplit
        rw [hrest] at hsplit
        have hsegment : ['f', ':', ' '] <+: line :=
          prefix_head_splitOn (hsplit ▸ hprefix) (by decide) (splitOn_append_separator hplain rest)
        have hlt : start < stop := by
          rcases Nat.lt_or_ge start stop with hlt | hge
          · exact hlt
          · -- the text goes on with an f here, and not with the end of a line
            rw [Nat.le_antisymm hle hge, hrest] at hprefix
            exact absurd (List.cons_prefix_cons.mp hprefix).1 (by decide)
        have hnext := @ih stop (by omega) (addLine merged line)
        rw [hrest, markedSegments_separator] at hnext
        have hpieces : markedSegments ['f', ':', ' '] '\n' (str1.drop start) =
            line :: markedSegments ['f', ':', ' '] '\n' rest := by
          rw [hsplit, markedSegments_append_separator hplain hsegment]
        rw [hpieces, List.foldl_cons, ← hnext, hline]
        rfl

/-- The loop of `mergeStrings` ends by itself. -/
theorem mergeLines_rounds {rounds : ℕ} (h : str1.length < rounds) (garbage : Bool)
    (merged : List Char) :
    mergeLines str1 rounds (findFrom ['f', ':', ' '] str1 0) garbage merged =
      mergeLines str1 (str1.length + 1) (findFrom ['f', ':', ' '] str1 0) garbage merged := by
  cases garbage with
  | true => rw [mergeLines_eq (by omega), mergeLines_eq (by omega)]
  | false =>
    obtain ⟨rounds, rfl⟩ : ∃ n, rounds = n + 1 := ⟨rounds - 1, by omega⟩
    cases findFrom ['f', ':', ' '] str1 0 with
    | none => rw [mergeLines_none, mergeLines_none]
    | some start => simp [mergeLines]

theorem prefix_of_mem_markedSegments {marker : List Char} {separator : Char}
    {text segment : List Char} (h : segment ∈ markedSegments marker separator text) :
    marker <+: segment := by
  obtain ⟨part, -, hpart⟩ := List.mem_filterMap.mp h
  exact prefix_of_markedFrom hpart

/-- Either all pieces are there already, or something that starts like an entry is appended. -/
theorem foldl_addLine {lines : List (List Char)} (h : ∀ line ∈ lines, ['f', ':', ' '] <+: line)
    (merged : List Char) :
    (lines.foldl addLine merged = merged ∧
        ∀ line ∈ lines, (findFrom line merged 0).isSome) ∨
      ∃ added, ['f', ':', ' '] <+: added ∧ lines.foldl addLine merged = merged ++ added ∧
        ¬ ∀ line ∈ lines, (findFrom line merged 0).isSome := by
  have happend : ∀ (lines : List (List Char)) (merged : List Char),
      ∃ added, lines.foldl addLine merged = merged ++ added := by
    intro lines
    induction lines with
    | nil => exact fun merged => ⟨[], (List.append_nil merged).symm⟩
    | cons line lines ih =>
      intro merged
      obtain ⟨added, hadded⟩ := ih (addLine merged line)
      rw [List.foldl_cons, hadded, addLine]
      split_ifs
      · exact ⟨line ++ added, List.append_assoc _ _ _⟩
      · exact ⟨added, rfl⟩
  induction lines with
  | nil => exact .inl ⟨rfl, fun _ hline => absurd hline List.not_mem_nil⟩
  | cons line lines ih =>
    obtain ⟨hline, hlines⟩ := List.forall_mem_cons.mp h
    cases hfound : findFrom line merged 0 with
    | some i =>
      have hsame : addLine merged line = merged := by simp [addLine, hfound]
      rw [List.foldl_cons, hsame, List.forall_mem_cons, hfound]
      simpa using ih hlines
    | none =>
      have hnew : addLine merged line = merged ++ line := by simp [addLine, hfound]
      obtain ⟨added, hadded⟩ := happend lines (merged ++ line)
      refine .inr ⟨line ++ added, hline.trans (List.prefix_append _ _), ?_, fun hall => ?_⟩
      · rw [List.foldl_cons, hnew, hadded, List.append_assoc]
      · have hfirst := hall line List.mem_cons_self
        rw [hfound] at hfirst
        cases hfirst

end MergeStrings

section Entries
variable {required : List Char → Prop} {str1 str2 : String}

/-- An appended piece is a new entry, or spoils the last one. -/
theorem not_collects_append {added : List Char} (hadded : ['f', ':', ' '] <+: added)
    (h : Collects required str2) :
    ¬ Collects required (String.ofList (str2.toList ++ added)) := by
  intro hlong
  simp only [Collects, regionEntries, String.toList_ofList] at h hlong
  obtain ⟨init, x, more, hentries, hbefore⟩ := markedSegments_append
    (show 'f' ∉ [':', ' '] by decide) (show ';' ∉ ['f', ':', ' '] by decide) str2.toList hadded
  rw [hentries] at hlong
  have hx : x ∈ markedSegments ['f', ':', ' '] ';' str2.toList :=
    (h.2 x).mpr ((hlong.2 x).mp (List.mem_append_right init List.mem_cons_self))
  have hnew : x ∉ init := fun hmem =>
    (List.nodup_append.mp hlong.1).2.2 x hmem x List.mem_cons_self rfl
  rcases hbefore with hsame | ⟨e, hlast, hne⟩
  · rw [hsame] at hx
    exact hnew hx
  · rw [hlast, List.mem_append, List.mem_singleton] at hx
    cases hx with
    | inl hmem => exact hnew hmem
    | inr heq => exact hne heq.symm

theorem mergeStrings_false (str1 str2 : String) : mergeStrings false str1 str2 = str2 := by
  rw [mergeStrings]
  split_ifs
  · cases findFrom ['f', ':', ' '] str1.toList 0 with
    | none => rw [mergeLines_none, String.ofList_toList]
    | some start => simp [mergeLines]
  · rfl

theorem mergeStrings_true (str1 str2 : String) : mergeStrings true str1 str2 =
    if str1.length > 1 ∧ str2.length > 2 then
      String.ofList ((regionLines str1).foldl addLine str2.toList)
    else str2 := by
  rw [mergeStrings, ← String.length_toList, mergeLines_eq (by omega)]
  rfl

/-- Too short a text has no entries. -/
theorem regionEntries_of_length (h : str2.length ≤ 2) : regionEntries str2 = [] := by
  rw [regionEntries, markedSegments_eq]
  cases hmarked : markedFrom ['f', ':', ' '] str2.toList with
  | none => rfl
  | some rest =>
    have hsuffix := markedFrom_drop (List.cons_ne_nil 'f' [':', ' ']) str2.toList 0
    rw [List.drop_zero, hmarked] at hsuffix
    obtain ⟨i, hi, hrest⟩ := Option.map_eq_some_iff.mp hsuffix.symm
    have hlength := (prefix_of_markedFrom hmarked).length_le
    rw [← hrest, List.length_drop, String.length_toList] at hlength
    simp only [List.length_cons, List.length_nil] at hlength
    omega

/-- A text with a piece has an entry. -/
theorem regionEntries_ne_nil (h : regionLines str1 ≠ []) : regionEntries str1 ≠ [] := by
  rw [regionLines, markedSegments_eq] at h
  rw [regionEntries, markedSegments_eq]
  cases hmarked : markedFrom ['f', ':', ' '] str1.toList with
  | none =>
    rw [hmarked] at h
    exact absurd rfl h
  | some rest => exact markedSegments_of_start (by decide) (prefix_of_markedFrom hmarked)

/-- Whatever the variable was left with, the entries are right just if the second text has them
already and nothing is appended. -/
theorem collects_mergeStrings_iff (h : ∀ entry ∈ regionEntries str1, required entry) :
    (∀ garbage, Collects required (mergeStrings garbage str1 str2)) ↔
      Collects required str2 ∧ ∀ line ∈ regionLines str1, (findFrom line str2.toList 0).isSome := by
  have hlines : ∀ line ∈ regionLines str1, ['f', ':', ' '] <+: line := fun _ hline =>
    prefix_of_mem_markedSegments hline
  rw [Bool.forall_bool, mergeStrings_false, mergeStrings_true]
  refine and_congr_right fun hsecond => ?_
  split_ifs with hlengths
  · rcases foldl_addLine hlines str2.toList with ⟨hsame, hfound⟩ | ⟨added, hadded, hlong, hmissing⟩
    · rw [hsame, String.ofList_toList]
      exact ⟨fun _ => hfound, fun _ => hsecond⟩
    · rw [hlong]
      exact ⟨fun hright => absurd hright (not_collects_append hadded hsecond),
        fun hfound => absurd hfound hmissing⟩
  · refine ⟨fun _ line hline => ?_, fun _ => hsecond⟩
    have hne := regionEntries_ne_nil (List.ne_nil_of_mem hline)
    have hfirst : 2 < str1.length := by
      by_contra hshort
      exact hne (regionEntries_of_length (not_lt.mp hshort))
    obtain ⟨entry, hentry⟩ := List.exists_mem_of_ne_nil _ hne
    have hmem := (hsecond.2 entry).mpr (h entry hentry)
    rw [regionEntries_of_length (by omega)] at hmem
    exact absurd hmem List.not_mem_nil

end Entries

section Groups
variable {garbage : Bool} {group : MetaProperty V × List (MetaProperty V)}

/-- Only the first merge is kept. -/
theorem infoOf_first (hname : group.1.name = "Required regions in the next experiment")
    {first : MetaProperty V} {others : List (MetaProperty V)} (hmembers : group.2 = first :: others) :
    infoOf garbage false group =
      OrdMap.empty.insertNew "" (mergeStrings garbage group.1.firstInfo first.firstInfo) := by
  have hlater : ∀ (others : List (MetaProperty V)) (m : OrdMap String String), "" ∈ m.keys →
      others.foldl (mergeInfos garbage group.1) m = m := by
    intro others m hm
    induction others with
    | nil => rfl
    | cons other others ih =>
      rw [List.foldl_cons, mergeInfos, if_pos hname, OrdMap.insertNew_of_mem hm]
      exact ih
  rw [infoOf, if_neg Bool.false_ne_true, hmembers, if_neg (List.cons_ne_nil _ _), List.foldl_cons,
    mergeInfos, if_pos hname]
  apply hlater
  rw [OrdMap.mem_keys, OrdMap.get?_insertNew]
  exact ⟨_, rfl⟩

theorem firstInfo_insertNew (prop : MetaProperty V) {info : String}
    (h : prop.addInfo = OrdMap.empty.insertNew "" info) : prop.firstInfo = info := by
  rw [MetaProperty.firstInfo, h]
  rfl

theorem requiredBy_subset {entries : List (List Char)} :
    (∀ entry, entry ∈ entries ↔ requiredBy group entry) → ∀ member ∈ group.1 :: group.2,
      regionEntries member.firstInfo ⊆ entries :=
  fun h member hmember entry hentry => (h entry).mpr ⟨member, hmember, hentry⟩

variable {arith : Autotune.DoubleArith V} {gatherproperties : Bool} {prop : Bool → MetaProperty V}

theorem regionsMerged_iff
    (h : ∀ garbage, Merges arith garbage gatherproperties group (prop garbage)) :
    (∀ garbage, RegionsMerged gatherproperties group (prop garbage)) ↔
      RegionsInFirst gatherproperties group := by
  rw [RegionsInFirst]
  by_cases hname : group.1.name = "Required regions in the next experiment"
  · simp only [RegionsMerged, hname, forall_const]
    cases gatherproperties with
    | true =>
      have hnone : ∀ garbage, regionEntries (prop garbage).firstInfo = [] := by
        intro garbage
        have hinfo := (h garbage).addInfo
        rw [infoOf, if_pos rfl] at hinfo
        rw [MetaProperty.firstInfo, hinfo]
        rfl
      simp only [true_or, forall_const, if_true, Collects, hnone, List.nodup_nil, List.not_mem_nil,
        false_iff, true_and, requiredBy, not_exists, not_and, List.eq_nil_iff_forall_not_mem]
      exact ⟨fun hright member hmember entry => hright entry member hmember,
        fun hempty entry member hmember => hempty member hmember entry⟩
    | false =>
      rw [if_neg Bool.false_ne_true]
      cases hmembers : group.2 with
      | nil => simp
      | cons first others =>
        have hinfo : ∀ garbage, (prop garbage).firstInfo =
            mergeStrings garbage group.1.firstInfo first.firstInfo := fun garbage =>
          firstInfo_insertNew _ ((h garbage).addInfo.trans (infoOf_first hname hmembers))
        have hentries : ∀ entry ∈ regionEntries group.1.firstInfo, requiredBy group entry :=
          fun entry hentry => ⟨group.1, List.mem_cons_self, hentry⟩
        have hfirst : first ∈ group.1 :: group.2 := by
          rw [hmembers]
          exact List.mem_cons_of_mem _ List.mem_cons_self
        simp only [Bool.false_eq_true, false_or, ne_eq, reduceCtorEq, not_false_eq_true,
          forall_const, hinfo]
        rw [collects_mergeStrings_iff hentries, ← hmembers]
        constructor
        · rintro ⟨⟨hnodup, hmem⟩, hfound⟩ first' others' hsame
          rw [hmembers] at hsame
          obtain ⟨rfl, -⟩ := List.cons.inj hsame
          exact ⟨hnodup, requiredBy_subset hmem, hfound⟩
        · intro hall
          obtain ⟨hnodup, hsubset, hfound⟩ := hall first others hmembers
          refine ⟨⟨hnodup, fun entry => ⟨fun hentry => ⟨first, hfirst, hentry⟩, ?_⟩⟩, hfound⟩
          rintro ⟨member, hmember, hentry⟩
          exact hsubset member hmember hentry
  · simp [RegionsMerged, hname]

end Groups

/-- The merged text has the entries of all members, each once, just where the first two of them
happen to give it; the merging of two texts always ends. -/
theorem requiredRegions_merged_iff (arith : Autotune.DoubleArith V) (gatherproperties : Bool)
    (properties : List (CollectedProperty V)) :
    (∀ (str1 : List Char) (rounds : ℕ) (garbage : Bool) (merged : List Char),
      str1.length < rounds →
        mergeLines str1 rounds (findFrom ['f', ':', ' '] str1 0) garbage merged =
          mergeLines str1 (str1.length + 1) (findFrom ['f', ':', ' '] str1 0) garbage merged) ∧
    ((∀ garbage, ∃ sent,
        clusterProps arith garbage gatherproperties (properties.map Subtype.val) = .ok sent ∧
        List.Forall₂ (RegionsMerged gatherproperties)
          (groups (joins arith gatherproperties) (properties.map Subtype.val)) sent) ↔
      ∀ group ∈ groups (joins arith gatherproperties) (properties.map Subtype.val),
        RegionsInFirst gatherproperties group) := by
  refine ⟨fun str1 rounds garbage merged h => mergeLines_rounds h garbage merged, ?_⟩
  have hcollected : ∀ prop ∈ properties.map Subtype.val, prop.Collected := by
    intro prop hprop
    obtain ⟨kept, -, rfl⟩ := List.mem_map.mp hprop
    exact kept.2
  choose sent hsent hmerges using fun garbage =>
    @clusterProps_merges V arith garbage gatherproperties _ hcollected
  rw [← forall_forall₂_iff hmerges fun group _ prop => regionsMerged_iff]
  refine forall_congr' fun garbage => ?_
  rw [hsent garbage]
  constructor
  · rintro ⟨other, hother, hright⟩
    rwa [Outcome.ok.inj hother]
  · exact fun hright => ⟨sent garbage, rfl, hright⟩

section Instances

/-- A property of one process that requires a region. -/
def requiringProp (process : ℤ) (region : String) : CollectedProperty ℚ :=
  ⟨{ soloProp with
      name := "Required regions in the next experiment"
      addInfo := OrdMap.empty.insertNew "" region
      execObjs := [⟨process, 0⟩] },
    ⟨soloProp_collected.regionId, List.cons_ne_nil _ _⟩, rfl⟩

def requiringProps : List (CollectedProperty ℚ) :=
  [requiringProp 0 "f: a.c, r: 1;", requiringProp 1 "f: b.c, r: 2;", requiringProp 2 "f: c.c, r: 3;"]

/-- Whatever the variable was left with, the region of the third property is lost. -/
theorem not_requiredRegions_merged : ¬ ∃ garbage sent,
    clusterProps Autotune.ratArith garbage false (requiringProps.map Subtype.val) = .ok sent ∧
      List.Forall₂ (RegionsMerged false)
        (groups (joins Autotune.ratArith false) (requiringProps.map Subtype.val)) sent := by
  rintro ⟨garbage, sent, hsent, hright⟩
  have hcollected : ∀ prop ∈ requiringProps.map Subtype.val, prop.Collected := by
    intro prop hprop
    obtain ⟨kept, -, rfl⟩ := List.mem_map.mp hprop
    exact kept.2
  obtain ⟨props, hprops, hmerges⟩ := @clusterProps_merges ℚ Autotune.ratArith garbage false _
    hcollected
  obtain rfl := Outcome.ok.inj (hprops.symm.trans hsent)
  have hjoins : ∀ process region, joins Autotune.ratArith false
      (requiringProp 0 "f: a.c, r: 1;").1 (requiringProp process region).1 = true :=
    fun process region => joins_of_near rfl rfl (by norm_num [requiringProp])
      (by norm_num [requiringProp])
  have hgroups : groups (joins Autotune.ratArith false) (requiringProps.map Subtype.val) =
      [((requiringProp 0 "f: a.c, r: 1;").1, [(requiringProp 1 "f: b.c, r: 2;").1,
        (requiringProp 2 "f: c.c, r: 3;").1])] := by
    rw [requiringProps, List.map_cons, groups_cons]
    simp [dissimilar, hjoins]
  rw [hgroups] at hmerges hright
  obtain ⟨prop, rest, hmerged, -, rfl⟩ := List.forall₂_cons_left_iff.mp hmerges
  have hcollects := (List.forall₂_cons.mp hright).1 rfl (.inr (List.cons_ne_nil _ _))
  rw [firstInfo_insertNew _ (hmerged.addInfo.trans (infoOf_first rfl rfl))] at hcollects
  have hlost := (hcollects.2 "f: c.c, r: 3".toList).mpr ⟨(requiringProp 2 "f: c.c, r: 3;").1,
    List.mem_cons_of_mem _ (List.mem_cons_of_mem _ List.mem_cons_self), by decide +kernel⟩
  have habsent : ∀ garbage, "f: c.c, r: 3".toList ∉
      regionEntries (mergeStrings garbage "f: a.c, r: 1;" "f: b.c, r: 2;") := by decide +kernel
  exact habsent garbage hlost

end Instances

end ReadexPtf.Agents
