import ReadexPtf.Autotune.RationalArith
import ReadexPtf.Lib.OrdMap
import Mathlib

/-! The reductions of the values that were recorded in the iterations of a time window. The
iterations without a value are filled. -/
namespace ReadexPtf.Agents
open ReadexPtf

inductive DataBaseReductionOperation where
  | sum
  | sumSqr
  | avg
  | stddev

inductive DataBaseInterpolationType where
  | constant
  | linear
  | zeros
  deriving DecidableEq

/-- Iterations that follow each other and count with one value. -/
structure Stretch where
  value : Int64
  count : ℤ

/-- What a reduction has gathered. -/
structure Reductions (V : Type) where
  sum : V
  sumSqr : V
  stddev : V
  numElements : ℤ
  deriving DecidableEq

def Reductions.start {V : Type} (arith : Autotune.DoubleArith V) : Reductions V :=
  ⟨arith.ofInt 0, arith.ofInt 0, arith.ofInt 0, 0⟩

def Reductions.add {V : Type} (arith : Autotune.DoubleArith V) (mean : V)
    (reductions : Reductions V) (stretch : Stretch) : Reductions V :=
  let value := arith.ofInt stretch.value.toInt
  let count := arith.ofInt stretch.count
  { sum := arith.add reductions.sum (arith.mul value count)
    sumSqr := arith.add reductions.sumSqr (arith.mul (arith.mul value value) count)
    stddev := arith.add reductions.stddev
      (arith.mul (arith.mul (arith.sub value mean) (arith.sub value mean)) count)
    numElements := reductions.numElements + stretch.count }

def reduced {V : Type} (arith : Autotune.DoubleArith V) (mean : V) (stretches : List Stretch) :
    Reductions V :=
  stretches.foldl (Reductions.add arith mean) (.start arith)

/-- The numbers of the reductions. A number that does not fit into `INT64` is converted to
whatever the machine gives. A sum that is not zero differs between one count and the next when
it is divided by them. -/
structure Measures (V : Type) extends Autotune.DoubleArith V where
  toInt64 : V → Int64
  mul_one : ∀ a, mul a (ofInt 1) = a
  zero_mul : ∀ n : ℤ, 0 ≤ n → mul (ofInt 0) (ofInt n) = ofInt 0
  zero_div : ∀ n : ℤ, 0 < n → div (ofInt 0) (ofInt n) = ofInt 0
  sub_zero : sub (ofInt 0) (ofInt 0) = ofInt 0
  zero_add : add (ofInt 0) (ofInt 0) = ofInt 0
  add_zero : ∀ a n, add (add a (ofInt n)) (ofInt 0) = add a (ofInt n)
  sum_eq_zero : ∀ (stretches : List Stretch) (n : ℤ), 0 < n → n < 2 ^ 31 →
    (∀ stretch ∈ stretches, 0 < stretch.count) → (stretches.map Stretch.count).sum = n →
    div (reduced toDoubleArith (ofInt 0) stretches).sum (ofInt (n + 1)) =
      div (reduced toDoubleArith (ofInt 0) stretches).sum (ofInt n) →
    (reduced toDoubleArith (ofInt 0) stretches).sum = ofInt 0
  values_eq_zero : ∀ (stretches : List Stretch) (n : ℤ), 0 < n → n < 2 ^ 31 →
    (∀ stretch ∈ stretches, 0 < stretch.count) → (stretches.map Stretch.count).sum = n →
    div (reduced toDoubleArith (ofInt 0) stretches).stddev (ofInt (n + 1)) =
      div (reduced toDoubleArith (ofInt 0) stretches).stddev (ofInt n) →
    ∀ stretch ∈ stretches, stretch.value = 0

section Models
variable {V : Type} (arith : Measures V) (interpType : DataBaseInterpolationType)

/-- The mean of the neighbours is taken in 64 bits, also where it is not used. -/
def interpolateAndReduce (leftX : ℤ) (leftY : Int64) (rightX : ℤ) (rightY : Int64)
    (op : DataBaseReductionOperation) (extraParam : V) : V :=
  let value := match interpType with
    | .constant => arith.ofInt ((leftY + rightY) / 2).toInt
    | .linear => arith.ofInt 0
    | .zeros => arith.ofInt 0
  let numPoints := rightX - leftX
  if numPoints ≤ 0 then arith.ofInt 0
  else match op with
    | .sum => arith.mul value (arith.ofInt numPoints)
    | .avg => value
    | .stddev => arith.mul (arith.mul (arith.sub value extraParam) (arith.sub value extraParam))
        (arith.ofInt numPoints)
    | .sumSqr => arith.mul (arith.mul value value) (arith.ofInt numPoints)

/-- The entries from the first that is not left of the window, and the last value before. -/
def rollOver (left : ℤ) : V → List (ℤ × Int64) → V × List (ℤ × Int64)
  | lastLeftY, [] => (lastLeftY, [])
  | lastLeftY, entry :: entries =>
    if left ≤ entry.1 then (lastLeftY, entry :: entries)
    else rollOver left (arith.ofInt entry.2.toInt) entries

/-- What the loop over the entries of the window carries. -/
structure Scan (V : Type) where
  reductions : Reductions V
  lastLeftX : ℤ
  lastLeftY : V

variable (mean : V)

/-- A gap up to `rightX`. -/
def Scan.interpolate (rightX : ℤ) (rightY : V) (scan : Scan V) : Scan V :=
  let reduce := interpolateAndReduce arith interpType scan.lastLeftX
    (arith.toInt64 scan.lastLeftY) rightX (arith.toInt64 rightY)
  { scan with
    reductions :=
      { sum := arith.add scan.reductions.sum (reduce .sum (arith.ofInt 0))
        sumSqr := arith.add scan.reductions.sumSqr (reduce .sumSqr (arith.ofInt 0))
        stddev := arith.add scan.reductions.stddev (reduce .stddev mean)
        numElements := scan.reductions.numElements + (rightX - scan.lastLeftX) } }

def Scan.element (entry : ℤ × Int64) (scan : Scan V) : Scan V :=
  let value := arith.ofInt entry.2.toInt
  let scan := if 1 < entry.1 - scan.lastLeftX then
      scan.interpolate arith interpType mean (entry.1 - 1) value
    else scan
  { reductions :=
      { sum := arith.add scan.reductions.sum value
        sumSqr := arith.add scan.reductions.sumSqr (arith.mul value value)
        stddev := arith.add scan.reductions.stddev
          (arith.mul (arith.sub value mean) (arith.sub value mean))
        numElements := scan.reductions.numElements + 1 }
    lastLeftX := entry.1
    lastLeftY := value }

def Scan.over (left right : ℤ) : Scan V → List (ℤ × Int64) → Scan V
  | scan, [] => scan
  | scan, entry :: entries =>
    let scan := if left ≤ entry.1 ∧ entry.1 < right then
        scan.element arith interpType mean entry
      else scan
    if right < entry.1 then scan else Scan.over left right scan entries

/-- The end of the gap before the first entry, and the value there. -/
def firstLimit (right : ℤ) : List (ℤ × Int64) → ℤ × V
  | [] => (right, arith.ofInt 0)
  | entry :: _ => (min entry.1 right, arith.ofInt entry.2.toInt)

/-- No difference of iterations of a window overflows, as none of them is negative. The
assertion compares the elements with the iterations of the window. -/
def getReductions (left right : ℤ) (dataEntry : OrdMap ℤ Int64) : Outcome (Reductions V) :=
  let (lastLeftY, entries) := rollOver arith left (arith.ofInt 0) dataEntry.entries
  let (rightLimit, rightY) := firstLimit arith right entries
  let scan : Scan V := ⟨.start arith.toDoubleArith, left, lastLeftY⟩
  let scan := scan.interpolate arith interpType mean rightLimit rightY
  let scan := Scan.over arith interpType mean left right { scan with lastLeftX := rightLimit }
    entries
  let scan := if 1 < right - scan.lastLeftX then
      scan.interpolate arith interpType mean (right - 1) scan.lastLeftY
    else scan
  if scan.reductions.numElements ≠ right - left then .aborts
  else .ok scan.reductions

end Models

/-- The iterations from `left` up to `right`; their numbers are `int`s. -/
structure TimeWindow where
  left : ℤ
  right : ℤ
  nonneg : 0 ≤ left
  le : left ≤ right
  fits : right < 2 ^ 31

/-! What is summed, as stretches of the window. -/

section Stretches
variable {V : Type} (arith : Measures V) (interpType : DataBaseInterpolationType)

def interpolated (leftY rightY : Int64) : Int64 :=
  match interpType with
  | .constant => (leftY + rightY) / 2
  | .linear => 0
  | .zeros => 0

def gap (leftX : ℤ) (leftY : V) (rightX : ℤ) (rightY : V) : List Stretch :=
  if rightX - leftX ≤ 0 then []
  else [⟨interpolated interpType (arith.toInt64 leftY) (arith.toInt64 rightY), rightX - leftX⟩]

/-- Behind an entry at `leftX`. -/
def stretchesFrom (right : ℤ) : ℤ → V → List (ℤ × Int64) → List Stretch
  | leftX, leftY, [] => gap arith interpType leftX leftY (right - 1) leftY
  | leftX, leftY, entry :: entries =>
    if entry.1 < right then
      gap arith interpType leftX leftY (entry.1 - 1) (arith.ofInt entry.2.toInt) ++
        ⟨entry.2, 1⟩ :: stretchesFrom right entry.1 (arith.ofInt entry.2.toInt) entries
    else gap arith interpType leftX leftY (right - 1) leftY

def stretchesOf (left right : ℤ) (leftY : V) : List (ℤ × Int64) → List Stretch
  | [] => gap arith interpType left leftY right (arith.ofInt 0)
  | entry :: entries =>
    if entry.1 < right then
      gap arith interpType left leftY entry.1 (arith.ofInt entry.2.toInt) ++
        ⟨entry.2, 1⟩ :: stretchesFrom arith interpType right entry.1 (arith.ofInt entry.2.toInt)
          entries
    else gap arith interpType left leftY right (arith.ofInt entry.2.toInt)

def windowStretches (window : TimeWindow) (dataEntry : OrdMap ℤ Int64) : List Stretch :=
  let (leftY, entries) := rollOver arith window.left (arith.ofInt 0) dataEntry.entries
  stretchesOf arith interpType window.left window.right leftY entries

variable {arith interpType}

theorem foldl_add_numElements {mean : V} (stretches : List Stretch) (reductions : Reductions V) :
    (stretches.foldl (Reductions.add arith.toDoubleArith mean) reductions).numElements =
      reductions.numElements + (stretches.map Stretch.count).sum := by
  induction stretches generalizing reductions with
  | nil => simp
  | cons stretch stretches ih =>
    rw [List.foldl_cons, ih, List.map_cons, List.sum_cons, ← add_assoc]
    rfl

theorem count_gap {leftX rightX : ℤ} {leftY rightY : V} (h : leftX ≤ rightX) :
    ((gap arith interpType leftX leftY rightX rightY).map Stretch.count).sum = rightX - leftX := by
  unfold gap
  split_ifs with hempty
  · have hzero : rightX - leftX = 0 := by omega
    rw [hzero]
    rfl
  · simp

theorem gap_empty {leftX rightX : ℤ} {leftY rightY : V} (h : rightX ≤ leftX) :
    gap arith interpType leftX leftY rightX rightY = [] := if_pos (by omega)

theorem gap_before (leftX : ℤ) (leftY rightY : V) :
    gap arith interpType leftX leftY (leftX - 1) rightY = [] := gap_empty (by omega)

theorem count_stretchesFrom {right : ℤ} {entries : List (ℤ × Int64)}
    (hsorted : entries.Pairwise fun a b => a.1 < b.1) :
    ∀ {leftX : ℤ} {leftY : V}, leftX < right → (∀ entry ∈ entries, leftX < entry.1) →
      ((stretchesFrom arith interpType right leftX leftY entries).map Stretch.count).sum =
        right - 1 - leftX := by
  induction entries with
  | nil =>
    intro leftX leftY hright _
    rw [stretchesFrom, count_gap (by omega)]
  | cons entry entries ih =>
    intro leftX leftY hright hkeys
    have hentry := hkeys entry List.mem_cons_self
    have hrest := List.pairwise_cons.mp hsorted
    rw [stretchesFrom]
    split_ifs with hinside
    · rw [List.map_append, List.sum_append, count_gap (by omega), List.map_cons, List.sum_cons,
        ih hrest.2 hinside hrest.1]
      dsimp only
      omega
    · rw [count_gap (by omega)]

theorem count_stretchesOf {left right : ℤ} {leftY : V} {entries : List (ℤ × Int64)}
    (hle : left ≤ right) (hsorted : entries.Pairwise fun a b => a.1 < b.1)
    (hkeys : ∀ entry ∈ entries, left ≤ entry.1) :
    ((stretchesOf arith interpType left right leftY entries).map Stretch.count).sum =
      right - left := by
  cases entries with
  | nil => rw [stretchesOf, count_gap hle]
  | cons entry entries =>
    have hrest := List.pairwise_cons.mp hsorted
    rw [stretchesOf]
    split_ifs with hinside
    · rw [List.map_append, List.sum_append, count_gap (hkeys entry List.mem_cons_self),
        List.map_cons, List.sum_cons, count_stretchesFrom hrest.2 hinside hrest.1]
      dsimp only
      omega
    · rw [count_gap hle]

theorem pos_gap {leftX rightX : ℤ} {leftY rightY : V} :
    ∀ stretch ∈ gap arith interpType leftX leftY rightX rightY, 0 < stretch.count := by
  unfold gap
  intro stretch hmem
  split_ifs at hmem with hempty
  · cases hmem
  · rw [List.mem_singleton.mp hmem]
    exact not_le.mp hempty

theorem pos_stretchesFrom {right : ℤ} {entries : List (ℤ × Int64)} :
    ∀ {leftX : ℤ} {leftY : V},
      ∀ stretch ∈ stretchesFrom arith interpType right leftX leftY entries, 0 < stretch.count := by
  induction entries with
  | nil => exact pos_gap
  | cons entry entries ih =>
    intro leftX leftY stretch hmem
    rw [stretchesFrom] at hmem
    split_ifs at hmem
    · cases List.mem_append.mp hmem with
      | inl hgap => exact pos_gap stretch hgap
      | inr hrest =>
        cases List.mem_cons.mp hrest with
        | inl hone => exact hone ▸ Int.one_pos
        | inr hlater => exact ih stretch hlater
    · exact pos_gap stretch hmem

theorem pos_stretchesOf {left right : ℤ} {leftY : V} {entries : List (ℤ × Int64)} :
    ∀ stretch ∈ stretchesOf arith interpType left right leftY entries, 0 < stretch.count := by
  cases entries with
  | nil => exact pos_gap
  | cons entry entries =>
    intro stretch hmem
    rw [stretchesOf] at hmem
    split_ifs at hmem
    · cases List.mem_append.mp hmem with
      | inl hgap => exact pos_gap stretch hgap
      | inr hrest =>
        cases List.mem_cons.mp hrest with
        | inl hone => exact hone ▸ Int.one_pos
        | inr hlater => exact pos_stretchesFrom stretch hlater
    · exact pos_gap stretch hmem

/-! The loop adds the stretches. -/

theorem interpolateAndReduce_value (leftY rightY : Int64) :
    (match interpType with
      | .constant => arith.ofInt ((leftY + rightY) / 2).toInt
      | .linear => arith.ofInt 0
      | .zeros => arith.ofInt 0) = arith.ofInt (interpolated interpType leftY rightY).toInt := by
  cases interpType <;> rfl

theorem Scan.interpolate_eq {mean : V} {scan : Scan V} {rightX : ℤ} (rightY : V)
    (h : scan.lastLeftX < rightX) :
    scan.interpolate arith interpType mean rightX rightY =
      { scan with
        reductions := (gap arith interpType scan.lastLeftX scan.lastLeftY rightX rightY).foldl
          (Reductions.add arith.toDoubleArith mean) scan.reductions } := by
  have hpoints : ¬ rightX - scan.lastLeftX ≤ 0 := by omega
  unfold Scan.interpolate interpolateAndReduce gap
  rw [interpolateAndReduce_value]
  simp only [if_neg hpoints]
  rfl

theorem Scan.interpolate_if {mean : V} {scan : Scan V} (limit : ℤ) (rightY : V) :
    (if 1 < limit - scan.lastLeftX then
        scan.interpolate arith interpType mean (limit - 1) rightY
      else scan) =
      { scan with
        reductions := (gap arith interpType scan.lastLeftX scan.lastLeftY (limit - 1)
          rightY).foldl (Reductions.add arith.toDoubleArith mean) scan.reductions } := by
  split_ifs with hgap
  · exact Scan.interpolate_eq rightY (by omega)
  · rw [gap_empty (by omega)]
    rfl

theorem Scan.element_eq {mean : V} {scan : Scan V} (entry : ℤ × Int64) :
    scan.element arith interpType mean entry =
      { reductions := (gap arith interpType scan.lastLeftX scan.lastLeftY (entry.1 - 1)
          (arith.ofInt entry.2.toInt) ++ [(⟨entry.2, 1⟩ : Stretch)]).foldl
            (Reductions.add arith.toDoubleArith mean) scan.reductions
        lastLeftX := entry.1
        lastLeftY := arith.ofInt entry.2.toInt } := by
  unfold Scan.element
  simp only [Scan.interpolate_if, List.foldl_append, List.foldl_cons, List.foldl_nil,
    Reductions.add, arith.mul_one]

theorem Scan.over_outside {mean : V} {left right : ℤ} {entries : List (ℤ × Int64)}
    (h : ∀ entry ∈ entries, right ≤ entry.1) (scan : Scan V) :
    Scan.over arith interpType mean left right scan entries = scan := by
  induction entries with
  | nil => rfl
  | cons entry entries ih =>
    have houtside : ¬ (left ≤ entry.1 ∧ entry.1 < right) := by
      have hentry := h entry List.mem_cons_self
      omega
    rw [Scan.over, if_neg houtside]
    split_ifs
    · rfl
    · exact ih fun next hnext => h next (List.mem_cons_of_mem entry hnext)

theorem Scan.over_eq {mean : V} {left right : ℤ} {entries : List (ℤ × Int64)}
    (hsorted : entries.Pairwise fun a b => a.1 < b.1) (hkeys : ∀ entry ∈ entries, left ≤ entry.1) :
    ∀ scan : Scan V,
      (let final := Scan.over arith interpType mean left right scan entries
       (if 1 < right - final.lastLeftX then
          final.interpolate arith interpType mean (right - 1) final.lastLeftY
        else final).reductions) =
      (stretchesFrom arith interpType right scan.lastLeftX scan.lastLeftY entries).foldl
        (Reductions.add arith.toDoubleArith mean) scan.reductions := by
  induction entries with
  | nil =>
    intro scan
    dsimp only [Scan.over]
    rw [Scan.interpolate_if, stretchesFrom]
  | cons entry entries ih =>
    intro scan
    have hrest := List.pairwise_cons.mp hsorted
    rw [stretchesFrom]
    by_cases hinside : entry.1 < right
    · have hnext := ih hrest.2 (fun next hnext => hkeys next (List.mem_cons_of_mem entry hnext))
        (scan.element arith interpType mean entry)
      have hwindow : left ≤ entry.1 ∧ entry.1 < right :=
        ⟨hkeys entry List.mem_cons_self, hinside⟩
      have hstays : ¬ right < entry.1 := by omega
      rw [Scan.over, if_pos hwindow, if_pos hinside]
      dsimp only at hnext ⊢
      rw [if_neg hstays, hnext, Scan.element_eq]
      simp only [List.foldl_append, List.foldl_cons, List.foldl_nil]
    · have houtside : ∀ next ∈ entry :: entries, right ≤ next.1 := by
        intro next hnext
        cases List.mem_cons.mp hnext with
        | inl hsame => exact hsame ▸ not_lt.mp hinside
        | inr hlater => exact (not_lt.mp hinside).trans (hrest.1 next hlater).le
      rw [Scan.over_outside houtside, if_neg hinside]
      dsimp only
      rw [Scan.interpolate_if]

theorem rollOver_eq {left : ℤ} {entries : List (ℤ × Int64)}
    (hsorted : entries.Pairwise fun a b => a.1 < b.1) (leftY : V) :
    (rollOver arith left leftY entries).2 = entries.filter fun entry => left ≤ entry.1 := by
  induction entries generalizing leftY with
  | nil => rfl
  | cons entry entries ih =>
    have hrest := List.pairwise_cons.mp hsorted
    rw [rollOver]
    split_ifs with hinside
    · have hall : ∀ next ∈ entry :: entries, decide (left ≤ next.1) = true := by
        intro next hnext
        cases List.mem_cons.mp hnext with
        | inl hsame => exact hsame ▸ decide_eq_true hinside
        | inr hlater => exact decide_eq_true (hinside.trans (hrest.1 next hlater).le)
      exact (List.filter_eq_self.mpr hall).symm
    · rw [ih hrest.2, List.filter_cons_of_neg (by simpa using hinside)]

/-- Nothing is added where there is no gap in front of the first entry. -/
theorem Scan.interpolate_start {mean : V} {left limit : ℤ} (leftY limitY : V)
    (h : left ≤ limit) :
    (⟨.start arith.toDoubleArith, left, leftY⟩ : Scan V).interpolate arith interpType mean limit
        limitY =
      ⟨(gap arith interpType left leftY limit limitY).foldl
        (Reductions.add arith.toDoubleArith mean) (.start arith.toDoubleArith), left, leftY⟩ := by
  cases h.lt_or_eq with
  | inl hlt => exact Scan.interpolate_eq limitY hlt
  | inr heq =>
    subst heq
    rw [gap_empty le_rfl]
    simp [Scan.interpolate, interpolateAndReduce, Reductions.start, arith.zero_add]

theorem Scan.over_start {mean : V} {left right : ℤ} (hle : left ≤ right)
    {entries : List (ℤ × Int64)} (hsorted : entries.Pairwise fun a b => a.1 < b.1)
    (hkeys : ∀ entry ∈ entries, left ≤ entry.1) (leftY : V) :
    (let limit := firstLimit arith right entries
     let scan := (⟨.start arith.toDoubleArith, left, leftY⟩ : Scan V).interpolate arith interpType
       mean limit.1 limit.2
     let final := Scan.over arith interpType mean left right { scan with lastLeftX := limit.1 }
       entries
     (if 1 < right - final.lastLeftX then
        final.interpolate arith interpType mean (right - 1) final.lastLeftY
      else final).reductions) =
    reduced arith.toDoubleArith mean (stretchesOf arith interpType left right leftY entries) := by
  have hlimit : left ≤ (firstLimit arith right entries).1 := by
    cases entries with
    | nil => exact hle
    | cons entry entries => exact le_min (hkeys entry List.mem_cons_self) hle
  have hover := @Scan.over_eq V arith interpType mean left right entries hsorted hkeys
  dsimp only at hover ⊢
  rw [hover, Scan.interpolate_start leftY _ hlimit]
  dsimp only
  rw [← List.foldl_append]
  cases entries with
  | nil =>
    rw [stretchesFrom, firstLimit, stretchesOf]
    dsimp only
    rw [gap_before, List.append_nil]
    rfl
  | cons entry entries =>
    rw [stretchesFrom, firstLimit, stretchesOf]
    dsimp only
    split_ifs with hinside
    · rw [min_eq_left hinside.le, gap_before, List.nil_append]
      rfl
    · rw [min_eq_right (not_lt.mp hinside), gap_before, List.append_nil]
      rfl

theorem sorted_rollOver {left : ℤ} {entries : List (ℤ × Int64)}
    (hsorted : entries.Pairwise fun a b => a.1 < b.1) (leftY : V) :
    ((rollOver arith left leftY entries).2.Pairwise fun a b => a.1 < b.1) ∧
      ∀ entry ∈ (rollOver arith left leftY entries).2, left ≤ entry.1 := by
  rw [rollOver_eq hsorted]
  refine ⟨hsorted.filter _, fun entry hentry => ?_⟩
  exact of_decide_eq_true (List.mem_filter.mp hentry).2

theorem count_windowStretches (window : TimeWindow) (dataEntry : OrdMap ℤ Int64) :
    ((windowStretches arith interpType window dataEntry).map Stretch.count).sum =
      window.right - window.left := by
  have hentries := @sorted_rollOver V arith window.left _ dataEntry.sorted (arith.ofInt 0)
  exact count_stretchesOf window.le hentries.1 hentries.2

theorem numElements_reduced (window : TimeWindow) (dataEntry : OrdMap ℤ Int64) (mean : V) :
    (reduced arith.toDoubleArith mean
      (windowStretches arith interpType window dataEntry)).numElements =
        window.right - window.left := by
  rw [reduced, foldl_add_numElements, count_windowStretches]
  exact zero_add _

/-- The assertion holds. -/
theorem getReductions_eq (window : TimeWindow) (dataEntry : OrdMap ℤ Int64) (mean : V) :
    getReductions arith interpType mean window.left window.right dataEntry =
      .ok (reduced arith.toDoubleArith mean
        (windowStretches arith interpType window dataEntry)) := by
  have hentries := @sorted_rollOver V arith window.left _ dataEntry.sorted (arith.ofInt 0)
  have hscan := @Scan.over_start V arith interpType mean _ _ window.le _ hentries.1 hentries.2
    (rollOver arith window.left (arith.ofInt 0) dataEntry.entries).1
  have helements := @numElements_reduced V arith interpType window dataEntry mean
  unfold windowStretches at helements
  unfold getReductions windowStretches
  dsimp only at hscan helements ⊢
  rw [hscan, if_neg (not_not.mpr helements)]

end Stretches
end ReadexPtf.Agents
