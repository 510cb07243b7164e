import ReadexPtf.Agents.Application

/-! When registrations and lookups of regions get the right ones: the key must tell the
requested region from all others at every use. -/
namespace ReadexPtf.Agents
open ReadexPtf

section Strings
variable {RegionType : Type} {app : Application RegionType}

namespace Application

/-- The numbers of the strings. -/
structure Numbered (app : Application RegionType) : Prop where
  room : app.lastStringId < 2 ^ 31
  ids : ∀ str stringId, app.getIDbyString str = some stringId → stringId ≤ app.lastStringId
  strings : ∀ stringId str, app.stringsById.get? stringId = some str → stringId ≤ app.lastStringId

/-- The number of a string that is in the table after `addString`. -/
def numberOf (app : Application RegionType) (str : String) : ℕ :=
  (app.getIDbyString str).getD (app.lastStringId + 2)

/-- The table after `addString`. -/
def withString (app : Application RegionType) (str : String) : Application RegionType :=
  if (app.getIDbyString str).isSome then app
  else { app with
    lastStringId := app.lastStringId + 2
    stringsById := app.stringsById.set (app.lastStringId + 2) str
    idsByString := app.idsByString.set str (app.lastStringId + 2) }

/-- The empty loop is never entered: no number above the last one is taken. -/
theorem addString_eq (h : app.Numbered) (str : String) : app.addString str =
    if app.numberOf str < 2 ^ 31 then .ok (app.withString str, app.numberOf str)
    else .undefined := by
  rw [addString, numberOf, withString]
  cases hget : app.getIDbyString str with
  | some stringId =>
    have hle := h.ids str stringId hget
    have hroom := h.room
    have hlt : stringId < 2 ^ 31 := by omega
    simp only [Option.getD_some, Option.isSome_some, if_true, if_pos hlt]
  | none =>
    have hfree : app.getStringByID (app.lastStringId + 1) = "" := by
      rw [getStringByID]
      cases hstring : app.stringsById.get? (app.lastStringId + 1) with
      | none => rfl
      | some other =>
        have hle := h.strings _ other hstring
        omega
    simp only [hfree, Option.getD_none, Option.isSome_none, Bool.false_eq_true, if_false]
    by_cases hroom : app.lastStringId + 2 < 2 ^ 31
    · rw [if_pos ⟨hroom, rfl⟩, if_pos hroom]
    · rw [if_neg (fun hand => hroom hand.1), if_neg hroom]

theorem getIDbyString_withString (str other : String) :
    (app.withString str).getIDbyString other =
      if other = str then some (app.numberOf str) else app.getIDbyString other := by
  rw [withString, numberOf]
  cases hget : app.getIDbyString str with
  | some stringId =>
    simp only [Option.isSome_some, if_true, Option.getD_some]
    split_ifs with heq
    · rw [heq, hget]
    · rfl
  | none =>
    simp only [Option.isSome_none, Bool.false_eq_true, if_false, Option.getD_none, getIDbyString]
    rw [OrdMap.get?_set]

theorem lastStringId_withString (str : String) : (app.withString str).lastStringId =
    if (app.getIDbyString str).isSome then app.lastStringId else app.lastStringId + 2 := by
  rw [withString]
  split_ifs <;> rfl

theorem numbers_eq (descriptor : Descriptor) : app.numbers descriptor =
    (app.numberOf descriptor.name,
      (app.withString descriptor.name).numberOf descriptor.fileName) := by
  rw [numbers, numberOf, numberOf, getIDbyString_withString, lastStringId_withString]
  split_ifs with hsome heq <;> simp_all [numberOf]

theorem Numbered.withString (h : app.Numbered) {str : String} (hroom : app.numberOf str < 2 ^ 31) :
    (app.withString str).Numbered := by
  rw [numberOf] at hroom
  rw [Application.withString]
  cases hget : app.getIDbyString str with
  | some stringId => exact h
  | none =>
    rw [hget] at hroom
    simp only [Option.isSome_none, Bool.false_eq_true, if_false]
    refine ⟨hroom, fun other stringId hother => ?_, fun stringId other hother => ?_⟩
    · rw [getIDbyString, OrdMap.get?_set] at hother
      split_ifs at hother with heq
      · exact (Option.some.inj hother).ge
      · have hle := h.ids other stringId hother
        simp only
        omega
    · rw [OrdMap.get?_set] at hother
      split_ifs at hother with heq
      · exact heq.le
      · have hle := h.strings stringId other hother
        simp only
        omega

theorem withString_maps (str : String) : (app.withString str).regions = app.regions ∧
    (app.withString str).codeRegions = app.codeRegions ∧
    (app.withString str).regionByRegionKey = app.regionByRegionKey := by
  rw [withString]
  split_ifs
  · exact ⟨rfl, rfl, rfl⟩
  · exact ⟨rfl, rfl, rfl⟩

end Application
end Strings

section Regions
variable {RegionType : Type} {app : Application RegionType}

theorem requested_requested (name fileName : String) (line : ℤ) :
    requested (requested name fileName line).name (requested name fileName line).fileName line =
      requested name fileName line := by
  have hname : defaultRegionName.isEmpty = false := by decide
  have hfile : defaultFileName.isEmpty = false := by decide
  simp only [requested]
  split_ifs <;> simp_all

namespace Application

/-- All regions are in both maps, under a number and an id that no other region has. -/
structure Sound (app : Application RegionType) : Prop where
  numbered : app.Numbered
  named : ∀ region ∈ app.regions,
    requested region.name region.fileName region.regionFirstLine = region.descriptor
  numbers : ∀ region ∈ app.regions, ∃ nameId fileId, app.getIDbyString region.name = some nameId ∧
    app.getIDbyString region.fileName = some fileId ∧
    region.localRegionId = hashRegionIdent nameId fileId region.regionFirstLine
  byKey : ∀ key address, app.getRegionByKey key = some address ↔
    ∃ region, app.regions[address]? = some region ∧ region.localRegionId = key
  byID : ∀ id address, app.codeRegions.get? id = some address ↔
    ∃ region, app.regions[address]? = some region ∧ region.getRegionID = id

theorem sound_start : (start : Application RegionType).Sound := by
  refine ⟨⟨?_, ?_, ?_⟩, ?_, ?_, ?_, ?_⟩
  · show 1 < 2 ^ 31
    decide
  · exact fun _ _ hnone => absurd hnone (by simp [start, getIDbyString])
  · exact fun _ _ hnone => absurd hnone (by simp [start])
  · exact fun _ hnone => absurd hnone List.not_mem_nil
  · exact fun _ hnone => absurd hnone List.not_mem_nil
  · exact fun _ _ => by simp [start, getRegionByKey]
  · exact fun _ _ => by simp [start]

/-- The key of a registered region is the key that it is looked up by. -/
theorem Sound.key_eq (h : app.Sound) {region : Region RegionType} (hregion : region ∈ app.regions) :
    app.getRegionKeyByDescr region.name region.fileName region.regionFirstLine =
      region.localRegionId := by
  obtain ⟨nameId, fileId, hname, hfile, hkey⟩ := h.numbers region hregion
  rw [getRegionKeyByDescr, h.named region hregion]
  simp only [Region.descriptor, hname, hfile]
  exact hkey.symm

theorem Sound.intact (h : app.Sound) : app.Intact := by
  intro address region hget
  have hregion := List.mem_of_getElem? hget
  have hkey : app.getRegionByKey region.localRegionId = some address :=
    (h.byKey _ _).mpr ⟨region, hget, rfl⟩
  have hid : app.codeRegions.get? region.getRegionID = some address :=
    (h.byID _ _).mpr ⟨region, hget, rfl⟩
  refine ⟨?_, hkey, ?_⟩
  · have hnamed := h.named region hregion
    rw [getRegionByDescr, hnamed]
    simp only [Region.descriptor]
    rw [h.key_eq hregion, hkey]
  · rw [getRegionByID, hid]

/-- A lookup meets the regions with the key of the requested descriptor. -/
theorem Sound.getRegionByDescr_eq_some (h : app.Sound) {name fileName : String} {line : ℤ}
    {address : ℕ} : app.getRegionByDescr name fileName line = some address ↔
      ∃ region, app.regions[address]? = some region ∧
        region.localRegionId = app.getRegionKeyByDescr name fileName line := by
  rw [getRegionByDescr, h.byKey]
  simp only [getRegionKeyByDescr, requested_requested]

/-- The region that a registration makes. -/
def newRegion (app : Application RegionType) (registration : Registration RegionType) :
    Region RegionType :=
  let descriptor := registration.descriptor
  let numbers := app.numbers descriptor
  ⟨hashRegionIdent numbers.1 numbers.2 descriptor.regionFirstLine, registration.regionType,
    numbers.2, descriptor.regionFirstLine, registration.startPosition, registration.endPosition,
    descriptor.fileName, descriptor.name⟩

/-- The application with the new region. -/
def withRegion (app : Application RegionType) (registration : Registration RegionType) :
    Application RegionType :=
  let region := app.newRegion registration
  { (app.withString region.name).withString region.fileName with
    regions := app.regions ++ [region]
    codeRegions := app.codeRegions.insertNew region.getRegionID app.regions.length
    regionByRegionKey := app.regionByRegionKey.set region.localRegionId app.regions.length }

theorem addSCOREPRegion_of_found {registration : Registration RegionType} {address : ℕ}
    (hfound : app.getRegionByDescr registration.descriptor.name registration.descriptor.fileName
      registration.descriptor.regionFirstLine = some address) :
    app.addSCOREPRegion registration = .ok (app, address) := by
  simp only [addSCOREPRegion, hfound]

/-- Without room for the names, or with the id of another region, no region is made. -/
theorem Sound.addSCOREPRegion_of_none (h : app.Sound) {registration : Registration RegionType}
    (hnone : app.getRegionByDescr registration.descriptor.name registration.descriptor.fileName
      registration.descriptor.regionFirstLine = none) :
    app.addSCOREPRegion registration =
      if (app.numbers registration.descriptor).1 < 2 ^ 31 ∧
          (app.numbers registration.descriptor).2 < 2 ^ 31 then
        if (app.codeRegions.get? registration.descriptor.regionID).isSome then .aborts
        else .ok (app.withRegion registration, app.regions.length)
      else .undefined := by
  obtain ⟨descriptor, hdescriptor⟩ : ∃ descriptor, descriptor = registration.descriptor := ⟨_, rfl⟩
  have hnumbers := app.numbers_eq descriptor
  rw [← hdescriptor] at hnone ⊢
  simp only [addSCOREPRegion, ← hdescriptor, hnone]
  rw [addString_eq h.numbered, hnumbers]
  by_cases hname : app.numberOf descriptor.name < 2 ^ 31
  · rw [if_pos hname, Outcome.ok_bind]
    have hnumbered := h.numbered.withString hname
    simp only [addString_eq hnumbered]
    by_cases hfile : (app.withString descriptor.name).numberOf descriptor.fileName < 2 ^ 31
    · obtain ⟨hregions, hcode, hbyKey⟩ := (app.withString descriptor.name).withString_maps
        descriptor.fileName
      obtain ⟨hregions', hcode', hbyKey'⟩ := app.withString_maps descriptor.name
      have hregion : (app.newRegion registration).getRegionID = descriptor.regionID := by
        rw [newRegion, ← hdescriptor]
        rfl
      rw [if_pos hfile, Outcome.ok_bind, if_pos ⟨hname, hfile⟩]
      have hregionEq : app.newRegion registration = ⟨hashRegionIdent (app.numberOf descriptor.name)
          ((app.withString descriptor.name).numberOf descriptor.fileName)
          descriptor.regionFirstLine, registration.regionType,
          (app.withString descriptor.name).numberOf descriptor.fileName,
          descriptor.regionFirstLine, registration.startPosition, registration.endPosition,
          descriptor.fileName, descriptor.name⟩ := by
        rw [newRegion, ← hdescriptor, hnumbers]
      simp only [hregions, hregions', hcode, hcode', hbyKey, hbyKey', ← hregionEq, hregion]
      rw [withRegion]
      simp only [hregion, getRegionByID, OrdMap.get?_insertNew]
      cases hid : app.codeRegions.get? descriptor.regionID with
      | some other =>
        obtain ⟨region, hget, -⟩ := (h.byID _ _).mp hid
        have hlt := (List.getElem?_eq_some_iff.mp hget).1
        have hne : other ≠ app.regions.length := by omega
        simp [hne]
      | none =>
        rw [hregionEq]
        simp
    · rw [if_neg hfile, if_neg (fun hand => hfile hand.2)]
      rfl
  · rw [if_neg hname, if_neg (fun hand => hname hand.1)]
    rfl

theorem getIDbyString_withRegion (registration : Registration RegionType) (str : String) :
    (app.withRegion registration).getIDbyString str =
      if str = registration.descriptor.fileName then some (app.numbers registration.descriptor).2
      else if str = registration.descriptor.name then some (app.numbers registration.descriptor).1
      else app.getIDbyString str := by
  have hids : (app.withRegion registration).getIDbyString str =
      ((app.withString registration.descriptor.name).withString
        registration.descriptor.fileName).getIDbyString str := rfl
  rw [hids, getIDbyString_withString, getIDbyString_withString, numbers_eq]

/-- A string keeps its number. -/
theorem getIDbyString_withRegion_of_some {registration : Registration RegionType} {str : String}
    {stringId : ℕ} (hget : app.getIDbyString str = some stringId) :
    (app.withRegion registration).getIDbyString str = some stringId := by
  have hids : (app.withRegion registration).getIDbyString str =
      ((app.withString registration.descriptor.name).withString
        registration.descriptor.fileName).getIDbyString str := rfl
  have hkeep : ∀ (app : Application RegionType) (other : String),
      app.getIDbyString str = some stringId →
      (app.withString other).getIDbyString str = some stringId := by
    intro app other hget
    rw [getIDbyString_withString]
    split_ifs with heq
    · rw [numberOf, ← heq, hget]
      rfl
    · exact hget
  rw [hids]
  exact hkeep _ _ (hkeep _ _ hget)

/-- A new region whose key and id no other region has. -/
theorem Sound.withRegion (h : app.Sound) {registration : Registration RegionType}
    (hname : (app.numbers registration.descriptor).1 < 2 ^ 31)
    (hfile : (app.numbers registration.descriptor).2 < 2 ^ 31)
    (hkey : ∀ region ∈ app.regions,
      region.localRegionId ≠ (app.newRegion registration).localRegionId)
    (hid : ∀ region ∈ app.regions, region.getRegionID ≠ (app.newRegion registration).getRegionID) :
    (app.withRegion registration).Sound := by
  obtain ⟨region, hregion⟩ : ∃ region, region = app.newRegion registration := ⟨_, rfl⟩
  rw [← hregion] at hkey hid
  have hregions : (app.withRegion registration).regions = app.regions ++ [region] := hregion ▸ rfl
  have hdescriptor : region.descriptor = registration.descriptor := hregion ▸ rfl
  have hget : ∀ address other, (app.withRegion registration).regions[address]? = some other ↔
      app.regions[address]? = some other ∨ (address = app.regions.length ∧ region = other) := by
    intro address other
    rw [hregions, List.getElem?_append]
    split_ifs with hlt
    · constructor
      · exact fun hold => .inl hold
      · rintro (hold | ⟨heq, -⟩)
        · exact hold
        · omega
    · have hnone : app.regions[address]? = none := List.getElem?_eq_none (by omega)
      rw [hnone, List.getElem?_singleton]
      split_ifs with hzero
      · have heq : address = app.regions.length := by omega
        simp [heq]
      · have hne : address ≠ app.regions.length := by omega
        simp [hne]
  have hmem : ∀ other, other ∈ (app.withRegion registration).regions →
      other ∈ app.regions ∨ other = region := by
    intro other hother
    rw [hregions, List.mem_append, List.mem_singleton] at hother
    exact hother
  have hlookup : ∀ {κ : Type} [LinearOrder κ] (m : OrdMap κ ℕ) (f : Region RegionType → κ),
      (∀ k address, m.get? k = some address ↔
        ∃ other, app.regions[address]? = some other ∧ f other = k) →
      (∀ other ∈ app.regions, f other ≠ f region) → ∀ k address,
      (if k = f region then some app.regions.length else m.get? k) = some address ↔
        ∃ other, (app.withRegion registration).regions[address]? = some other ∧ f other = k := by
    intro κ _ m f hm hfresh k address
    simp only [hget]
    split_ifs with heq
    · constructor
      · intro hlast
        exact ⟨region, .inr ⟨(Option.some.inj hlast).symm, rfl⟩, heq.symm⟩
      · rintro ⟨other, hold | ⟨hlast, -⟩, hother⟩
        · exact absurd (hother.trans heq) (hfresh other (List.mem_of_getElem? hold))
        · rw [hlast]
    · rw [hm]
      constructor
      · rintro ⟨other, hold, hother⟩
        exact ⟨other, .inl hold, hother⟩
      · rintro ⟨other, hold | ⟨-, hlast⟩, hother⟩
        · exact ⟨other, hold, hother⟩
        · exact absurd (hlast ▸ hother).symm heq
  refine ⟨?_, ?_, ?_, ?_, ?_⟩
  · rw [numbers_eq] at hname hfile
    have hnumbered := (h.numbered.withString hname).withString hfile
    exact ⟨hnumbered.room, hnumbered.ids, hnumbered.strings⟩
  · intro other hother
    cases hmem other hother with
    | inl hold => exact h.named other hold
    | inr heq =>
      rw [heq, hdescriptor, hregion]
      exact requested_requested _ _ _
  · intro other hother
    cases hmem other hother with
    | inl hold =>
      obtain ⟨nameId, fileId, hnameId, hfileId, hkeyId⟩ := h.numbers other hold
      exact ⟨nameId, fileId, getIDbyString_withRegion_of_some hnameId,
        getIDbyString_withRegion_of_some hfileId, hkeyId⟩
    | inr heq =>
      refine ⟨(app.numbers registration.descriptor).1, (app.numbers registration.descriptor).2,
        ?_, ?_, ?_⟩
      · rw [heq, hregion, getIDbyString_withRegion]
        simp only [newRegion]
        split_ifs with hsame
        · rw [Application.numbers]
          simp [hsame]
        · rfl
      · rw [heq, hregion, getIDbyString_withRegion]
        simp [newRegion]
      · rw [heq, hregion]
        rfl
  · intro key address
    rw [← hlookup app.regionByRegionKey Region.localRegionId h.byKey hkey]
    have hmap : (app.withRegion registration).regionByRegionKey =
      app.regionByRegionKey.set region.localRegionId app.regions.length := hregion ▸ rfl
    rw [getRegionByKey, hmap, OrdMap.get?_set]
  · intro id address
    rw [← hlookup app.codeRegions Region.getRegionID h.byID hid]
    have hmap : (app.withRegion registration).codeRegions =
      app.codeRegions.insertNew region.getRegionID app.regions.length := hregion ▸ rfl
    rw [hmap, OrdMap.get?_insertNew]
    by_cases heq : id = region.getRegionID
    · have hnone : app.codeRegions.get? id = none := by
        cases hsome : app.codeRegions.get? id with
        | none => rfl
        | some other =>
          obtain ⟨region', hget', hid'⟩ := (h.byID _ _).mp hsome
          exact absurd (hid'.trans heq) (hid region' (List.mem_of_getElem? hget'))
      rw [hnone, if_pos heq, Option.none_or]
    · rw [if_neg heq, if_neg heq, Option.or_none]

end Application

/-- A use that is distinguished gets the right region. -/
theorem Use.exact_of_distinguished (h : app.Sound) {use : Use RegionType}
    (hdistinguished : Distinguished app use) :
    ∃ app' result, use.run app = .ok (app', result) ∧ use.Answers app' result ∧ app'.Sound := by
  cases use with
  | getRegionByDescr name fileName line =>
    refine ⟨app, _, rfl, fun address haddress => ?_, h⟩
    obtain ⟨region, hget, hkey⟩ := h.getRegionByDescr_eq_some.mp haddress
    exact ⟨region, hget, hdistinguished region (List.mem_of_getElem? hget) hkey⟩
  | addSCOREPRegion registration =>
    obtain ⟨hothers, hname, hfile⟩ := hdistinguished
    cases hfound : app.getRegionByDescr registration.descriptor.name
        registration.descriptor.fileName registration.descriptor.regionFirstLine with
    | some address =>
      obtain ⟨region, hget, hkey⟩ := h.getRegionByDescr_eq_some.mp hfound
      refine ⟨app, some address, ?_, ⟨address, region, rfl, hget, ?_⟩, h⟩
      · rw [Use.run, Application.addSCOREPRegion_of_found hfound]
        rfl
      · exact hothers region (List.mem_of_getElem? hget) (.inl hkey)
    | none =>
      -- a region with the descriptor would have been found
      have hnew : ∀ region ∈ app.regions, region.descriptor ≠ registration.descriptor := by
        intro region hregion heq
        obtain ⟨address, hget⟩ := List.mem_iff_getElem?.mp hregion
        have hkey := h.key_eq hregion
        have hsome : app.getRegionByDescr registration.descriptor.name
            registration.descriptor.fileName registration.descriptor.regionFirstLine =
              some address := by
          apply h.getRegionByDescr_eq_some.mpr
          refine ⟨region, hget, ?_⟩
          rw [← hkey, ← heq]
          rfl
        rw [hfound] at hsome
        exact absurd hsome (by simp)
      have hkey : ∀ region ∈ app.regions,
          region.localRegionId ≠ (app.newRegion registration).localRegionId :=
        fun region hregion heq => hnew region hregion (hothers region hregion (.inr (.inl heq)))
      have hid : ∀ region ∈ app.regions,
          region.getRegionID ≠ (app.newRegion registration).getRegionID :=
        fun region hregion heq => hnew region hregion (hothers region hregion (.inr (.inr heq)))
      have hcode : app.codeRegions.get? registration.descriptor.regionID = none := by
        cases hsome : app.codeRegions.get? registration.descriptor.regionID with
        | none => rfl
        | some address =>
          obtain ⟨region, hget, heq⟩ := (h.byID _ _).mp hsome
          exact absurd heq (hid region (List.mem_of_getElem? hget))
      refine ⟨app.withRegion registration, some app.regions.length, ?_,
        ⟨_, app.newRegion registration, rfl, ?_, rfl⟩, h.withRegion hname hfile hkey hid⟩
      · rw [Use.run, h.addSCOREPRegion_of_none hfound, if_pos ⟨hname, hfile⟩, hcode]
        rfl
      · exact List.getElem?_concat_length

/-- A use that gets the right region is distinguished. -/
theorem Use.distinguished_of_exact (h : app.Sound) {use : Use RegionType}
    {app' : Application RegionType} {result : Option ℕ} (hrun : use.run app = .ok (app', result))
    (hanswers : use.Answers app' result) (hintact : app'.Intact) : Distinguished app use := by
  cases use with
  | getRegionByDescr name fileName line =>
    obtain ⟨rfl, rfl⟩ := Prod.mk.inj (Outcome.ok.inj hrun)
    intro region hregion hkey
    obtain ⟨address, hget⟩ := List.mem_iff_getElem?.mp hregion
    obtain ⟨region', hget', hdescriptor⟩ := hanswers address
      (h.getRegionByDescr_eq_some.mpr ⟨region, hget, hkey⟩)
    rw [hget, Option.some.injEq] at hget'
    exact hget' ▸ hdescriptor
  | addSCOREPRegion registration =>
    obtain ⟨⟨app₁, address₁⟩, hadd, hreturn⟩ := Outcome.bind_eq_ok.mp hrun
    obtain ⟨rfl, rfl⟩ := Prod.mk.inj (Outcome.ok.inj hreturn)
    obtain ⟨address, region, haddress, hget, hdescriptor⟩ := hanswers
    obtain rfl := Option.some.inj haddress
    have hroom := h.numbered.room
    cases hfound : app.getRegionByDescr registration.descriptor.name
        registration.descriptor.fileName registration.descriptor.regionFirstLine with
    | some existing =>
      rw [Application.addSCOREPRegion_of_found hfound] at hadd
      obtain ⟨rfl, rfl⟩ := Prod.mk.inj (Outcome.ok.inj hadd)
      -- the names have numbers already
      have hregion := List.mem_of_getElem? hget
      obtain ⟨nameId, fileId, hname, hfile, hkey⟩ := h.numbers region hregion
      have hregionName : region.name = registration.descriptor.name :=
        congrArg Descriptor.name hdescriptor
      have hregionFile : region.fileName = registration.descriptor.fileName :=
        congrArg Descriptor.fileName hdescriptor
      have hregionLine : region.regionFirstLine = registration.descriptor.regionFirstLine :=
        congrArg Descriptor.regionFirstLine hdescriptor
      have hlookupKey := h.key_eq hregion
      rw [hregionName] at hname
      rw [hregionFile] at hfile
      rw [hregionName, hregionFile, hregionLine] at hlookupKey
      have hnumbers : app.numbers registration.descriptor = (nameId, fileId) := by
        rw [Application.numbers, hname, hfile]
        simp only [Option.getD_some, Prod.mk.injEq, true_and]
        split_ifs with hsame
        · rw [hsame, hname] at hfile
          exact Option.some.inj hfile
        · rfl
      refine ⟨fun other hother hsame => ?_, ?_⟩
      · obtain ⟨address', hget'⟩ := List.mem_iff_getElem?.mp hother
        have hunique : address' = existing := by
          rcases hsame with hsame | hsame | hsame
          · have hfirst := (h.byKey _ _).mpr ⟨other, hget', hsame.trans hlookupKey⟩
            have hsecond := (h.byKey _ _).mpr ⟨region, hget, rfl⟩
            exact Option.some.inj (hfirst.symm.trans hsecond)
          · rw [hnumbers, ← hregionLine, ← hkey] at hsame
            have hfirst := (h.byKey _ _).mpr ⟨other, hget', hsame⟩
            have hsecond := (h.byKey _ _).mpr ⟨region, hget, rfl⟩
            exact Option.some.inj (hfirst.symm.trans hsecond)
          · have hfirst := (h.byID _ _).mpr ⟨other, hget', hsame⟩
            have hsecond := (h.byID _ _).mpr ⟨region, hget, congrArg Descriptor.regionID hdescriptor⟩
            exact Option.some.inj (hfirst.symm.trans hsecond)
        rw [hunique, hget, Option.some.injEq] at hget'
        exact hget' ▸ hdescriptor
      · have hnameLe := h.numbered.ids _ _ hname
        have hfileLe := h.numbered.ids _ _ hfile
        rw [hnumbers]
        constructor
        · simp only
          omega
        · simp only
          omega
    | none =>
      rw [h.addSCOREPRegion_of_none hfound] at hadd
      split_ifs at hadd with hnumbers hcode
      obtain ⟨rfl, rfl⟩ := Prod.mk.inj (Outcome.ok.inj hadd)
      refine ⟨fun other hother hsame => ?_, hnumbers⟩
      obtain ⟨address, hget'⟩ := List.mem_iff_getElem?.mp hother
      have hlt := (List.getElem?_eq_some_iff.mp hget').1
      rcases hsame with hsame | hsame | hsame
      · rw [h.getRegionByDescr_eq_some.mpr ⟨other, hget', hsame⟩] at hfound
        exact absurd hfound (by simp)
      · -- the entry of the other region is overwritten
        have hkept : (app.withRegion registration).regions[address]? = some other := by
          have hregions : (app.withRegion registration).regions =
            app.regions ++ [app.newRegion registration] := rfl
          rw [hregions, List.getElem?_append_left hlt]
          exact hget'
        have hbyKey := (hintact address other hkept).2.1
        have hmap : (app.withRegion registration).regionByRegionKey = app.regionByRegionKey.set
          (app.newRegion registration).localRegionId app.regions.length := rfl
        have hsame' : other.localRegionId = (app.newRegion registration).localRegionId := hsame
        rw [Application.getRegionByKey, hmap, hsame', OrdMap.get?_set_self,
          Option.some.injEq] at hbyKey
        omega
      · rw [(h.byID _ _).mpr ⟨other, hget', hsame⟩] at hcode
        exact absurd rfl hcode

/-- The uses get the right regions exactly if each is distinguished when its turn comes. -/
theorem exact_iff (uses : List (Use RegionType)) :
    Exact uses Application.start ↔
      Outcome.StepsMeet Distinguished Use.step uses Application.start := by
  have hrun : ∀ (uses : List (Use RegionType)) (app : Application RegionType), app.Sound →
      (Exact uses app ↔ Outcome.StepsMeet Distinguished Use.step uses app) := by
    intro uses
    induction uses with
    | nil => exact fun _ _ => Iff.rfl
    | cons use uses ih =>
      intro app h
      constructor
      · intro ⟨app', result, hrun, hanswers, hintact, hrest⟩
        have hdistinguished := Use.distinguished_of_exact h hrun hanswers hintact
        refine ⟨hdistinguished, fun app'' hstep => ?_⟩
        obtain ⟨app₁, result₁, hrun₁, -, hsound⟩ := Use.exact_of_distinguished h hdistinguished
        rw [hrun₁] at hrun
        obtain ⟨rfl, rfl⟩ := Prod.mk.inj (Outcome.ok.inj hrun)
        rw [Use.step, hrun₁] at hstep
        exact Outcome.ok.inj hstep ▸ (ih app₁ hsound).mp hrest
      · intro hmeet
        obtain ⟨app', result, hrun, hanswers, hsound⟩ := Use.exact_of_distinguished h hmeet.1
        refine ⟨app', result, hrun, hanswers, hsound.intact, (ih app' hsound).mpr ?_⟩
        apply hmeet.2
        rw [Use.step, hrun]
        rfl
  exact hrun uses .start Application.sound_start

/-- Two regions of one file, the second 40000 lines before the first. -/
def longFile : List (Use Unit) :=
  [.addSCOREPRegion ⟨40010, "file.c", "first", (), 40010, 40020⟩,
    .addSCOREPRegion ⟨10, "file.c", "second", (), 10, 20⟩]

theorem not_exact : ¬ ∀ uses : List (Use Unit), Exact uses .start := by
  intro hall
  obtain ⟨app₁, result₁, hrun₁, -, -, app₂, result₂, hrun₂, -, hintact, -⟩ := hall longFile
  have hsteps : longFile.foldlM Use.step Application.start = .ok app₂ := by
    simp only [longFile, List.foldlM_cons, List.foldlM_nil, Use.step, hrun₁, hrun₂,
      Outcome.ok_bind, Outcome.pure_eq]
  have hoverwritten : (longFile.foldlM Use.step Application.start).returnsWith fun app =>
      match app.regions[0]? with
      | some region => decide (app.getRegionByKey region.localRegionId = some 1)
      | none => false := by decide +kernel
  rw [hsteps] at hoverwritten
  simp only [Outcome.returnsWith] at hoverwritten
  cases hget : app₂.regions[0]? with
  | none => simp [hget] at hoverwritten
  | some region =>
    rw [hget] at hoverwritten
    have hkey := (hintact 0 region hget).2.1
    rw [of_decide_eq_true hoverwritten] at hkey
    exact absurd hkey (by decide)

end Regions
end ReadexPtf.Agents
