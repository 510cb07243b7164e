import Mathlib

/-! The linkages of the clusterer: the distance of a merged cluster to another one, computed
from the three distances before the merge. Doubles are elements of an ordered field. -/
namespace ReadexPtf.Cluster
variable {V : Type*} [Field V] [LinearOrder V]

def f00 (_ _ _ : ℕ) : V := 0
def f05 (_ _ _ : ℕ) : V := 1 / 2
def fm05 (_ _ _ : ℕ) : V := -(1 / 2)
def avgi (ni nj _nk : ℕ) : V := ni / (ni + nj : ℕ)
def avgj (ni nj nk : ℕ) : V := avgi nj ni nk

def centroid_beta (ni nj _nk : ℕ) : V :=
  let nij := ni + nj
  (-1 : V) * ((ni * nj : ℕ) / (nij * nij : ℕ))

def ward_alphai (ni nj nk : ℕ) : V :=
  let nik := ni + nk
  nik / (nik + nj : ℕ)

def ward_alphaj (ni nj nk : ℕ) : V := ward_alphai nj ni nk
def ward_beta (ni nj nk : ℕ) : V := -1 * (nk / (ni + nj + nk : ℕ))

/-- The Lance-Williams update. The second coefficient gets `nj` in place of `ni`. -/
def distance (alphai alphaj beta gamma : ℕ → ℕ → ℕ → V) (ni nj nk : ℕ) (dik djk dij : V) : V :=
  alphai ni nj nk * dik + alphaj nj nj nk * djk + beta ni nj nk * dij +
    gamma ni nj nk * |dik - djk|

def single_linkage : ℕ → ℕ → ℕ → V → V → V → V := distance f05 f05 f00 fm05
def complete_linkage : ℕ → ℕ → ℕ → V → V → V → V := distance f05 f05 f00 f05
def group_average : ℕ → ℕ → ℕ → V → V → V → V := distance avgi avgj f00 f00
def weighted_group_average : ℕ → ℕ → ℕ → V → V → V → V := distance f05 f05 f00 f00
def centroid : ℕ → ℕ → ℕ → V → V → V → V := distance avgi avgj centroid_beta f00
def ward : ℕ → ℕ → ℕ → V → V → V → V := distance ward_alphai ward_alphaj ward_beta f00

inductive Linkage where
  | single
  | complete
  | groupAverage
  | weightedGroupAverage
  | centroid
  | ward
  deriving DecidableEq, Repr

/-- The function that a linkage names. -/
def Linkage.update : Linkage → ℕ → ℕ → ℕ → V → V → V → V
  | single => single_linkage
  | complete => complete_linkage
  | groupAverage => group_average
  | weightedGroupAverage => weighted_group_average
  | centroid => Cluster.centroid
  | ward => Cluster.ward

variable [IsStrictOrderedRing V]

theorem single_linkage_eq_min (ni nj nk : ℕ) (dik djk dij : V) :
    single_linkage ni nj nk dik djk dij = min dik djk := by
  rw [single_linkage, distance, f05, f05, f00, fm05]
  cases le_total dik djk with
  | inl hle =>
    rw [min_eq_left hle, abs_of_nonpos (sub_nonpos.mpr hle)]
    ring
  | inr hle =>
    rw [min_eq_right hle, abs_of_nonneg (sub_nonneg.mpr hle)]
    ring

theorem complete_linkage_eq_max (ni nj nk : ℕ) (dik djk dij : V) :
    complete_linkage ni nj nk dik djk dij = max dik djk := by
  rw [complete_linkage, distance, f05, f05, f00]
  cases le_total dik djk with
  | inl hle =>
    rw [max_eq_right hle, abs_of_nonpos (sub_nonpos.mpr hle)]
    ring
  | inr hle =>
    rw [max_eq_left hle, abs_of_nonneg (sub_nonneg.mpr hle)]
    ring

/-- The second cluster counts half, whatever the two sizes are. -/
theorem group_average_eq (ni nj nk : ℕ) (hj : 0 < nj) (dik djk dij : V) :
    group_average ni nj nk dik djk dij = ni / (ni + nj) * dik + 1 / 2 * djk := by
  have hj' : (nj : V) ≠ 0 := Nat.cast_ne_zero.mpr hj.ne'
  have hhalf : (nj : V) / (nj + nj : ℕ) = 1 / 2 := by
    rw [Nat.cast_add, ← two_mul, ← div_div, div_right_comm, div_self hj']
  rw [group_average, distance, avgj, avgi, avgi, hhalf, f00, Nat.cast_add]
  ring

/-- Of positive distances, the least of which is that of the merged clusters, every linkage
makes a positive one. -/
theorem Linkage.update_pos (linkage : Linkage) {ni nj nk : ℕ} (hi : 0 < ni) (hj : 0 < nj)
    {dik djk dij : V} (hij : 0 < dij) (hik : dij ≤ dik) (hjk : dij ≤ djk) :
    0 < linkage.update ni nj nk dik djk dij := by
  have hni : (0 : V) < ni := Nat.cast_pos.mpr hi
  have hnj : (0 : V) < nj := Nat.cast_pos.mpr hj
  have hnk : (0 : V) ≤ nk := Nat.cast_nonneg nk
  have hdik : 0 < dik := hij.trans_le hik
  have hdjk : 0 < djk := hij.trans_le hjk
  cases linkage with
  | single =>
    rw [update, single_linkage_eq_min]
    exact lt_min hdik hdjk
  | complete =>
    rw [update, complete_linkage_eq_max]
    exact lt_max_of_lt_left hdik
  | groupAverage =>
    rw [update, group_average_eq ni nj nk hj]
    positivity
  | weightedGroupAverage =>
    simp only [update, weighted_group_average, distance, f05, f00]
    positivity
  | centroid =>
    have hterm : ((ni * nj : ℕ) : V) / ((ni + nj) * (ni + nj) : ℕ) * dij ≤ 1 / 4 * dij := by
      refine mul_le_mul_of_nonneg_right ?_ hij.le
      push_cast
      rw [div_le_div_iff₀ (by positivity) (by norm_num)]
      nlinarith only [sq_nonneg ((ni : V) - nj)]
    have hsum : update centroid ni nj nk dik djk dij =
        group_average ni nj nk dik djk dij -
          ((ni * nj : ℕ) : V) / ((ni + nj) * (ni + nj) : ℕ) * dij := by
      simp only [update, Cluster.centroid, group_average, distance, centroid_beta, f00]
      ring
    rw [hsum, group_average_eq ni nj nk hj]
    have hfirst : 0 < (ni : V) / (ni + nj) * dik := by positivity
    linarith only [hterm, hfirst, hjk, hij]
  | ward =>
    have hlast : (nk : V) / (ni + nj + nk : ℕ) * dij ≤ nk / (ni + nj + nk : ℕ) * dik :=
      mul_le_mul_of_nonneg_left hik (by positivity)
    have hfirst : (nk : V) / (ni + nj + nk : ℕ) * dik < (ni + nk : ℕ) / (ni + nk + nj : ℕ) * dik := by
      refine mul_lt_mul_of_pos_right ?_ hdik
      rw [show ni + nk + nj = ni + nj + nk by omega]
      refine div_lt_div_of_pos_right ?_ (by positivity)
      exact_mod_cast (by omega : nk < ni + nk)
    have hsecond : 0 ≤ ((nj + nk : ℕ) : V) / (nj + nk + nj : ℕ) * djk := by positivity
    simp only [update, Cluster.ward, distance, ward_alphaj, ward_alphai, ward_beta, f00]
    linarith only [hlast, hfirst, hsecond]

end ReadexPtf.Cluster
