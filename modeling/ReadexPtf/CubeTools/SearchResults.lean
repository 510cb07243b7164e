import ReadexPtf.CubeTools.DetectRegion
import Mathlib

/-! What the search does on the candidates of a call tree: when it ends, which regions it
returns, and when those are nested. -/
namespace ReadexPtf.CubeTools
open ReadexPtf Relation Peeling

variable {t : CallTree} {V : Type} [Zero V] [Add V] [Sub V] [Mul V] [LT V] [DecidableLT V]
variable {get_whole_subtree : t.Cnode → List t.Cnode} {phase_node : t.Cnode}
variable {can_cnodes : List t.Cnode} {names : List String} {input : Cube t V}

/-- The candidates the tool gathers are what the search relies on. -/
theorem Candidates.gathered (hgws : WholeSubtree get_whole_subtree)
    (h : Candidates phase_node can_cnodes names) :
    Gathered get_whole_subtree phase_node (getInfluencedRegion input phase_node) can_cnodes
      names where
  nodup := h.nodup
  occurs := fun _ hname => (h.occurs hgws hname).imp fun _ hc => hc.1
  evaluates := by
    intro name hname
    obtain ⟨c, hfind, hcallee⟩ := h.exists_getCnode hname
    refine ⟨fun hempty => h.nonempty (hempty ▸ hname), ?_⟩
    rw [Passes, hfind, ← hcallee]
    obtain hself | hnone | hundefined := getInfluencedRegion_cases input phase_node c
    · exact .inl hself
    · exact .inr (.inl hnone)
    · exact .inr (.inr hundefined.1)

/-- `phase` calls `a`, which calls itself. -/
abbrev recursiveTree : CallTree where
  size := 3
  callee := !["phase", "a", "a"]
  parent := ![none, some 0, some 1]
  parent_lt := by decide

/-- A profile in which nothing takes time. -/
def zeroCube (t : CallTree) : Cube t Int :=
  ⟨fun _ => false, fun _ => 0, fun _ => 0, fun _ => 0, fun _ => 0, fun _ => 0⟩

end ReadexPtf.CubeTools
