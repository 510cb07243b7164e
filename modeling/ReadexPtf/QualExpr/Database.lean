import ReadexPtf.QualExpr.Manager
import ReadexPtf.Lib.Formatted
import ReadexPtf.Lib.Grouping
import ReadexPtf.Lib.Segments
import Mathlib

/-! The database of the quality expressions: the sub-expressions of a string are registered one
by one, and each of them has an id. -/
namespace ReadexPtf.QualExpr.Database

abbrev Entry := QualityExpressionEntry Text

/-- What an `unsigned int` counts to. -/
def idLimit : ℕ := 2 ^ 32

structure QualityExpressionDB where
  idIterator : ℕ
  qualityExpressionsSet : OrdMap Text Entry
  qualityExpressionsByID : OrdMap ℕ Entry

namespace QualityExpressionDB

def new : QualityExpressionDB := ⟨0, .empty, .empty⟩

/-- The ids go on from where they were. -/
def clear (db : QualityExpressionDB) : QualityExpressionDB :=
  { db with qualityExpressionsSet := .empty, qualityExpressionsByID := .empty }

/-- The mangled expression is the expression. -/
def registerQualityExpressionEntry (s : QualityExpressionDB × List ℕ) (expression : Text) :
    QualityExpressionDB × List ℕ :=
  match s.1.qualityExpressionsSet.get? expression with
  | some entry => (s.1, s.2 ++ [entry.id])
  | none =>
    let id := (s.1.idIterator + 1) % idLimit
    let entry : Entry := ⟨id, expression⟩
    (⟨id, s.1.qualityExpressionsSet.set expression entry,
      s.1.qualityExpressionsByID.set id entry⟩, s.2 ++ [id])

def subExpression (expression : Text) (cur : ℕ) : Option ℕ → Text
  | some nextCur => (expression.drop cur).take (nextCur - cur)
  | none => expression.drop cur

/-- The rounds of the loop; a search from behind the end of the expression finds nothing. -/
def registerFrom (expression : Text) : ℕ → ℕ → Option ℕ → QualityExpressionDB × List ℕ →
    Outcome (QualityExpressionDB × List ℕ)
  | 0, _, _, _ => .undefined
  | rounds + 1, cur, nextCur, s =>
    let s := registerQualityExpressionEntry s (subExpression expression cur nextCur)
    match nextCur with
    | none => .ok s
    | some next =>
      registerFrom expression rounds (next + 1) (findFrom [';'] expression (next + 1 + 1)) s

/-- With a bound on the rounds that an expression of this length does not come to. -/
def registerQualityExpression (expression : Text) (s : QualityExpressionDB × List ℕ) :
    Outcome (QualityExpressionDB × List ℕ) :=
  registerFrom expression (expression.length + 1) 0 (findFrom [';'] expression 0) s

def getQualityExpressionById (db : QualityExpressionDB) (id : ℕ) : Outcome Text :=
  match db.qualityExpressionsByID.get? id with
  | some entry => .ok entry.expression
  | none => .throws "QualityExpressionDB::getQualityExpressionById: not found"

end QualityExpressionDB

section Parts

def depthAfter (depth : ℕ) (c : Char) : ℕ :=
  if c = '(' then depth + 1 else if c = ')' then depth - 1 else depth

/-- The sub-expressions between the separators that stand outside of all parentheses. -/
def topLevelParts (expression : Text) : List Text :=
  segmentsBy (· = 0) depthAfter ';' 0 expression

/-- The parts from a position on; where one starts, the search passes over its first character. -/
def partsFrom (atStart : Bool) (expression : Text) : List Text :=
  segmentsBy (fun atStart => !atStart) (fun atStart c => c = ';' && !atStart) ';' atStart expression

/-- What the loop registers: the search for the first separator passes over nothing. -/
def registeredParts (expression : Text) : List Text := partsFrom false expression

end Parts

section Consistent

/-- Each expression has one id, which is one of those that were given out. -/
structure Consistent (db : QualityExpressionDB) : Prop where
  of_set : ∀ {expression entry}, db.qualityExpressionsSet.get? expression = some entry →
    entry.expression = expression ∧ db.qualityExpressionsByID.get? entry.id = some entry
  of_byID : ∀ {id entry}, db.qualityExpressionsByID.get? id = some entry →
    entry.id = id ∧ 0 < id ∧ id ≤ db.idIterator ∧
      db.qualityExpressionsSet.get? entry.expression = some entry
  below : db.idIterator < idLimit

/-- A database as it is while the ids last. -/
structure ConsistentDB extends QualityExpressionDB where
  consistent : Consistent toQualityExpressionDB

/-- The parts are registered, and nothing else is; the ids, none of them zero, look them up in
order; what the other ids look up stays. -/
structure Registered (db db' : QualityExpressionDB) (parts : List Text) (ids : List ℕ) : Prop where
  consistent : Consistent db'
  lookUp : List.Forall₂ (fun id part => 0 < id ∧ db'.getQualityExpressionById id = .ok part)
    ids parts
  exactly : ∀ expression, expression ∈ db'.qualityExpressionsSet.keys ↔
    expression ∈ db.qualityExpressionsSet.keys ∨ expression ∈ parts
  kept : ∀ id expression, db.getQualityExpressionById id = .ok expression →
    db'.getQualityExpressionById id = .ok expression

/-- The ids are put behind those of the list that is given. -/
def PartsRegistered (db : QualityExpressionDB) (idList : List ℕ) (expression : Text) : Prop :=
  ∃ db' ids, QualityExpressionDB.registerQualityExpression expression (db, idList) = .ok (db', idList ++ ids) ∧
    Registered db db' ((topLevelParts expression).filter (· ≠ [])) ids

/-- The ids that the parts still need. -/
def newIds (db : QualityExpressionDB) (parts : List Text) : ℕ :=
  (parts.toFinset \ db.qualityExpressionsSet.keys.toFinset).card

end Consistent

section Splitting
variable {expression : Text}

theorem partsFrom_false_cons (c : Char) (cs : Text) : partsFrom false (c :: cs) =
    if c = ';' then [] :: partsFrom true cs else (partsFrom false cs).modifyHead (c :: ·) := by
  rw [partsFrom, segmentsBy]
  by_cases hc : c = ';'
  · simp [hc, partsFrom]
  · simp [hc, partsFrom]

theorem partsFrom_true_cons (c : Char) (cs : Text) :
    partsFrom true (c :: cs) = (partsFrom false cs).modifyHead (c :: ·) := by
  simp [partsFrom, segmentsBy]

theorem partsFrom_plain {atStart : Bool} {text : Text} (h : ';' ∉ text.drop atStart.toNat) :
    partsFrom atStart text = [text] := by
  have hfalse : ∀ text : Text, ';' ∉ text → partsFrom false text = [text] := by
    intro text
    induction text with
    | nil => exact fun _ => rfl
    | cons c cs ih =>
      intro hplain
      rw [List.mem_cons, not_or] at hplain
      rw [partsFrom_false_cons, if_neg (Ne.symm hplain.1), ih hplain.2, List.modifyHead_cons]
  cases atStart with
  | false => exact hfalse text h
  | true =>
    cases text with
    | nil => rfl
    | cons c cs => rw [partsFrom_true_cons, hfalse cs h, List.modifyHead_cons]

theorem partsFrom_append {atStart : Bool} {part : Text} (rest : Text)
    (h : ';' ∉ part.drop atStart.toNat) (hlength : atStart.toNat ≤ part.length) :
    partsFrom atStart (part ++ ';' :: rest) = part :: partsFrom true rest := by
  have hfalse : ∀ part : Text, ';' ∉ part →
      partsFrom false (part ++ ';' :: rest) = part :: partsFrom true rest := by
    intro part
    induction part with
    | nil => exact fun _ => partsFrom_false_cons _ _
    | cons c cs ih =>
      intro hplain
      rw [List.mem_cons, not_or] at hplain
      rw [List.cons_append, partsFrom_false_cons, if_neg (Ne.symm hplain.1), ih hplain.2,
        List.modifyHead_cons]
  cases atStart with
  | false => exact hfalse part h
  | true =>
    cases part with
    | nil => exact absurd hlength (by decide)
    | cons c cs =>
      rw [List.cons_append, partsFrom_true_cons, hfalse cs h, List.modifyHead_cons]

/-- The rounds from a position on register the parts from there on. -/
theorem registerFrom_eq {atStart : Bool} {rounds cur : ℕ} (hcur : cur ≤ expression.length)
    (hrounds : expression.length < rounds + cur) (s : QualityExpressionDB × List ℕ) :
    QualityExpressionDB.registerFrom expression rounds cur
        (findFrom [';'] expression (cur + atStart.toNat)) s =
      .ok ((partsFrom atStart (expression.drop cur)).foldl
        QualityExpressionDB.registerQualityExpressionEntry s) := by
  induction rounds generalizing atStart cur s with
  | zero => omega
  | succ rounds ih =>
    cases hnext : findFrom [';'] expression (cur + atStart.toNat) with
    | none =>
      rw [QualityExpressionDB.registerFrom]
      have hplain := findFrom_char_none hnext
      rw [← List.drop_drop] at hplain
      rw [partsFrom_plain hplain]
      rfl
    | some next =>
      rw [QualityExpressionDB.registerFrom]
      obtain ⟨hpos, hplain, rest, hrest⟩ := findFrom_char_some hnext
      have hle : next < expression.length := by
        by_contra hlt
        rw [List.drop_eq_nil_of_le (not_lt.mp hlt)] at hrest
        cases hrest
      have hafter : rest = expression.drop (next + 1) := by
        rw [← List.tail_drop, hrest, List.tail_cons]
      have hpart : expression.drop cur =
          (expression.drop cur).take (next - cur) ++ ';' :: expression.drop (next + 1) := by
        rw [← hafter, ← hrest]
        exact drop_eq_take_append _ (by omega)
      have hdrop : ((expression.drop cur).take (next - cur)).drop atStart.toNat =
          (expression.drop (cur + atStart.toNat)).take (next - (cur + atStart.toNat)) := by
        rw [List.drop_take, List.drop_drop, Nat.sub_add_eq]
      rw [hpart, partsFrom_append _ (by rw [hdrop]; exact hplain)
        (by rw [List.length_take, List.length_drop]; omega), List.foldl_cons]
      exact @ih true (next + 1) (by omega) (by omega) _

theorem registerQualityExpression_eq (s : QualityExpressionDB × List ℕ) :
    QualityExpressionDB.registerQualityExpression expression s = .ok
      ((registeredParts expression).foldl QualityExpressionDB.registerQualityExpressionEntry s) :=
  @registerFrom_eq _ false _ 0 (Nat.zero_le _) (by omega) s

/-- No separator is passed over where no part is empty. -/
theorem partsFrom_eq_splitOn {atStart : Bool} {text first : Text} {more : List Text}
    (hsplit : text.splitOn ';' = first :: more) (hfirst : atStart → first ≠ [])
    (hmore : ∀ part ∈ more, part ≠ []) : partsFrom atStart text = first :: more := by
  induction text generalizing atStart first more with
  | nil =>
    rw [← hsplit]
    rfl
  | cons c cs ih =>
    obtain ⟨head, others, hsplit'⟩ := List.exists_cons_of_ne_nil (List.splitOn_ne_nil ';' cs)
    rw [splitOn_cons, hsplit', List.modifyHead_cons] at hsplit
    split_ifs at hsplit with hc
    · obtain ⟨rfl, rfl⟩ := List.cons.inj hsplit
      rw [List.forall_mem_cons] at hmore
      cases atStart with
      | true => exact absurd rfl (hfirst rfl)
      | false => rw [partsFrom_false_cons, if_pos hc, ih hsplit' (fun _ => hmore.1) hmore.2]
    · obtain ⟨rfl, rfl⟩ := List.cons.inj hsplit
      have hrest := @ih false _ _ hsplit' (fun h => by cases h) hmore
      cases atStart with
      | true => rw [partsFrom_true_cons, hrest, List.modifyHead_cons]
      | false => rw [partsFrom_false_cons, if_neg hc, hrest, List.modifyHead_cons]

/-- A separator in a registered part is its first character. -/
theorem registeredParts_separator {part : Text} (hpart : part ∈ registeredParts expression)
    (hhead : part.head? ≠ some ';') : ';' ∉ part := by
  have hcut : ∀ (atStart : Bool) (part : Text), (!atStart) = true →
      (part = [] ∨ ∃ c cs, part = c :: cs ∧ ';' ∉ cs ∧
        ((decide (';' = ';') && !atStart) = false → c ≠ ';')) →
      part.head? ≠ some ';' → ';' ∉ part := by
    rintro atStart part - (rfl | ⟨c, cs, rfl, hcs, -⟩) hhead'
    · exact List.not_mem_nil
    · rw [List.mem_cons, not_or]
      exact ⟨fun heq => hhead' (by rw [heq]; rfl), hcs⟩
  have hcons : ∀ (atStart : Bool) (c : Char) (part : Text), ¬ (c = ';' ∧ (!atStart) = true) →
      (part = [] ∨ ∃ d ds, part = d :: ds ∧ ';' ∉ ds ∧
        ((decide (c = ';') && !atStart) = false → d ≠ ';')) →
      (c :: part = [] ∨ ∃ d ds, c :: part = d :: ds ∧ ';' ∉ ds ∧
        (atStart = false → d ≠ ';')) := by
    rintro atStart c part hc hrest
    have hnext : (decide (c = ';') && !atStart) = false := by
      cases atStart with
      | false => simpa using hc
      | true => exact Bool.and_false _
    refine .inr ⟨c, part, rfl, ?_, fun hfalse heq => hc ⟨heq, by rw [hfalse]; rfl⟩⟩
    rcases hrest with rfl | ⟨d, ds, rfl, hds, hd⟩
    · exact List.not_mem_nil
    · rw [List.mem_cons, not_or]
      exact ⟨(hd hnext).symm, hds⟩
  obtain ⟨head, more, hparts, hfirst, hmore⟩ := segmentsBy_forall
    (fun atStart part => part = [] ∨ ∃ c cs, part = c :: cs ∧ ';' ∉ cs ∧
      (atStart = false → c ≠ ';')) _ (fun _ => .inl rfl) hcut hcons false expression
  have hall : ∀ part ∈ head :: more, part.head? ≠ some ';' → ';' ∉ part := by
    refine List.forall_mem_cons.mpr ⟨fun _ => ?_, hmore⟩
    rcases hfirst with rfl | ⟨c, cs, rfl, hcs, hc⟩
    · exact List.not_mem_nil
    · rw [List.mem_cons, not_or]
      exact ⟨(hc rfl).symm, hcs⟩
  rw [← hparts] at hall
  exact hall part hpart hhead

/-- At the start of a part the scan is outside of all parentheses. -/
theorem head?_topLevelParts {part : Text} (hpart : part ∈ topLevelParts expression) :
    part.head? ≠ some ';' := by
  have hcut : ∀ (depth : ℕ) (part : Text), decide (depth = 0) = true →
      (depthAfter depth ';' = 0 → part.head? ≠ some ';') → part.head? ≠ some ';' := by
    intro depth part hdepth hnext
    exact hnext (by rw [of_decide_eq_true hdepth]; rfl)
  have hcons : ∀ (depth : ℕ) (c : Char) (part : Text), ¬ (c = ';' ∧ decide (depth = 0) = true) →
      (depthAfter depth c = 0 → part.head? ≠ some ';') →
      depth = 0 → (c :: part).head? ≠ some ';' := by
    intro depth c part hc _ hdepth hhead
    rw [List.head?_cons, Option.some.injEq] at hhead
    exact hc ⟨hhead, decide_eq_true hdepth⟩
  obtain ⟨head, more, hparts, hfirst, hmore⟩ := segmentsBy_forall
    (fun depth part => depth = 0 → part.head? ≠ some ';') _ (fun _ _ => by simp) hcut hcons 0
    expression
  have hall : ∀ part ∈ head :: more, part.head? ≠ some ';' :=
    List.forall_mem_cons.mpr ⟨hfirst rfl, hmore⟩
  rw [← hparts] at hall
  exact hall part hpart

/-- The loop registers the parts that are not empty just if all of them are such, and have no
separator within parentheses. -/
theorem registeredParts_eq_iff :
    registeredParts expression = (topLevelParts expression).filter (· ≠ []) ↔
      ∀ part ∈ topLevelParts expression, part ≠ [] ∧ ';' ∉ part := by
  constructor
  · intro h
    have hregistered := sum_length_segmentsBy (fun atStart => !atStart)
      (fun atStart c => c = ';' && !atStart) ';' false expression
    have htop := sum_length_segmentsBy (fun depth : ℕ => decide (depth = 0)) depthAfter ';' 0
      expression
    change ((registeredParts expression).map List.length).sum +
      (registeredParts expression).length = _ at hregistered
    change ((topLevelParts expression).map List.length).sum +
      (topLevelParts expression).length = _ at htop
    have hsum : ∀ parts : List Text,
        ((parts.filter (· ≠ [])).map List.length).sum = (parts.map List.length).sum := by
      intro parts
      induction parts with
      | nil => rfl
      | cons part parts ih =>
        cases part with
        | nil => simpa using ih
        | cons c cs => simpa using ih
    have hall : (topLevelParts expression).filter (· ≠ []) = topLevelParts expression := by
      refine List.filter_sublist.eq_of_length ?_
      rw [h, hsum] at hregistered
      omega
    intro part hpart
    refine ⟨of_decide_eq_true (List.filter_eq_self.mp hall part hpart), ?_⟩
    rw [hall] at h
    exact registeredParts_separator (h ▸ hpart) (head?_topLevelParts hpart)
  · intro h
    have hsplit : topLevelParts expression = expression.splitOn ';' :=
      segmentsBy_eq_splitOn fun part hpart => (h part hpart).2
    rw [List.filter_eq_self.mpr fun part hpart => decide_eq_true (h part hpart).1]
    obtain ⟨first, more, hfirst⟩ :=
      List.exists_cons_of_ne_nil (List.splitOn_ne_nil ';' expression)
    rw [hsplit, hfirst] at h ⊢
    exact partsFrom_eq_splitOn hfirst (fun _ => (h first List.mem_cons_self).1)
      fun part hpart => (h part (List.mem_cons_of_mem _ hpart)).1

end Splitting

section Registering
variable {db db' db'' : QualityExpressionDB}

theorem getQualityExpressionById_eq_ok {id : ℕ} {expression : Text} :
    db.getQualityExpressionById id = .ok expression ↔
      ∃ entry, db.qualityExpressionsByID.get? id = some entry ∧ entry.expression = expression := by
  rw [QualityExpressionDB.getQualityExpressionById]
  cases db.qualityExpressionsByID.get? id with
  | none => simp
  | some entry => simp

theorem consistent_new : Consistent QualityExpressionDB.new :=
  ⟨fun h => (Option.some_ne_none _ h.symm).elim, fun h => (Option.some_ne_none _ h.symm).elim,
    by decide⟩

theorem consistent_clear (h : Consistent db) : Consistent db.clear :=
  ⟨fun h => (Option.some_ne_none _ h.symm).elim, fun h => (Option.some_ne_none _ h.symm).elim,
    h.below⟩

theorem Registered.nothing (h : Consistent db) : Registered db db [] [] where
  consistent := h
  lookUp := .nil
  exactly _ := by simp
  kept _ _ h := h

theorem Registered.append {parts parts' : List Text} {ids ids' : List ℕ}
    (h : Registered db db' parts ids) (h' : Registered db' db'' parts' ids') :
    Registered db db'' (parts ++ parts') (ids ++ ids') where
  consistent := h'.consistent
  lookUp := List.rel_append
    (h.lookUp.imp fun id part hpart => ⟨hpart.1, h'.kept id part hpart.2⟩) h'.lookUp
  exactly expression := by rw [h'.exactly, h.exactly, List.mem_append, or_assoc]
  kept id expression hid := h'.kept id expression (h.kept id expression hid)

/-- An expression that is there keeps its id. -/
theorem registered_again (h : Consistent db) {expression : Text} {entry : Entry}
    (hset : db.qualityExpressionsSet.get? expression = some entry) :
    Registered db db [expression] [entry.id] where
  consistent := h
  lookUp := by
    obtain ⟨hexpression, hbyID⟩ := h.of_set hset
    refine .cons ⟨(h.of_byID hbyID).2.1, ?_⟩ .nil
    exact getQualityExpressionById_eq_ok.mpr ⟨entry, hbyID, hexpression⟩
  exactly other := by
    rw [List.mem_singleton, or_iff_left_of_imp]
    rintro rfl
    exact OrdMap.mem_keys.mpr ⟨entry, hset⟩
  kept _ _ h := h

/-- The database with one expression more, under the next id. -/
def withNext (db : QualityExpressionDB) (expression : Text) : QualityExpressionDB :=
  ⟨db.idIterator + 1,
    db.qualityExpressionsSet.set expression ⟨db.idIterator + 1, expression⟩,
    db.qualityExpressionsByID.set (db.idIterator + 1) ⟨db.idIterator + 1, expression⟩⟩

theorem withNext_idIterator (db : QualityExpressionDB) (expression : Text) :
    (withNext db expression).idIterator = db.idIterator + 1 := rfl

theorem consistent_withNext (h : Consistent db) {expression : Text}
    (hset : db.qualityExpressionsSet.get? expression = none)
    (hnext : db.idIterator + 1 < idLimit) : Consistent (withNext db expression) where
  of_set {other entry} hother := by
    rw [withNext, OrdMap.get?_set] at hother
    rw [withNext, OrdMap.get?_set]
    split_ifs at hother with heq
    · obtain rfl := Option.some.inj hother
      exact ⟨heq.symm, if_pos rfl⟩
    · obtain ⟨hexpression, hbyID⟩ := h.of_set hother
      have hid := (h.of_byID hbyID).2.2.1
      rw [if_neg (by omega)]
      exact ⟨hexpression, hbyID⟩
  of_byID {id entry} hid := by
    rw [withNext, OrdMap.get?_set] at hid
    rw [withNext, OrdMap.get?_set]
    split_ifs at hid with heq
    · obtain rfl := Option.some.inj hid
      exact ⟨heq.symm, by omega, heq.le, if_pos rfl⟩
    · obtain ⟨hentry, hpos, hle, hother⟩ := h.of_byID hid
      have hne : entry.expression ≠ expression := by
        rintro rfl
        rw [hset] at hother
        cases hother
      rw [if_neg hne]
      exact ⟨hentry, hpos, Nat.le_succ_of_le hle, hother⟩
  below := hnext

theorem registered_withNext (h : Consistent db) {expression : Text}
    (hset : db.qualityExpressionsSet.get? expression = none)
    (hnext : db.idIterator + 1 < idLimit) :
    Registered db (withNext db expression) [expression] [db.idIterator + 1] where
  consistent := consistent_withNext h hset hnext
  lookUp := by
    refine .cons ⟨Nat.succ_pos _, getQualityExpressionById_eq_ok.mpr
      ⟨⟨db.idIterator + 1, expression⟩, ?_, rfl⟩⟩ .nil
    rw [withNext, OrdMap.get?_set_self]
  exactly other := by
    rw [withNext, OrdMap.mem_keys_set, List.mem_singleton, or_comm]
  kept id other hid := by
    obtain ⟨entry, hentry, hother⟩ := getQualityExpressionById_eq_ok.mp hid
    have hle := (h.of_byID hentry).2.2.1
    refine getQualityExpressionById_eq_ok.mpr ⟨entry, ?_, hother⟩
    rw [withNext, OrdMap.get?_set_ne _ _ (by omega)]
    exact hentry

theorem newIds_again {expression : Text} {parts : List Text}
    (h : expression ∈ db.qualityExpressionsSet.keys) :
    newIds db (expression :: parts) = newIds db parts := by
  rw [newIds, newIds, List.toFinset_cons,
    Finset.insert_sdiff_of_mem _ (List.mem_toFinset.mpr h)]

theorem newIds_withNext {expression : Text} {parts : List Text}
    (h : expression ∉ db.qualityExpressionsSet.keys) :
    newIds db (expression :: parts) = newIds (withNext db expression) parts + 1 := by
  have hkeys : (withNext db expression).qualityExpressionsSet.keys.toFinset =
      insert expression db.qualityExpressionsSet.keys.toFinset := by
    ext other
    rw [withNext, List.mem_toFinset, OrdMap.mem_keys_set, Finset.mem_insert, List.mem_toFinset]
  have hinsert : insert expression parts.toFinset \ db.qualityExpressionsSet.keys.toFinset =
      insert expression
        (parts.toFinset \ insert expression db.qualityExpressionsSet.keys.toFinset) := by
    ext other
    simp only [Finset.mem_sdiff, Finset.mem_insert, List.mem_toFinset]
    by_cases hother : other = expression
    · simp [hother, h]
    · simp [hother]
  rw [newIds, newIds, hkeys, List.toFinset_cons, hinsert, Finset.card_insert_of_notMem]
  rw [Finset.mem_sdiff, not_and_not_right]
  exact fun _ => Finset.mem_insert_self _ _

/-- As long as the ids last, all parts are registered; else one of the ids is zero. -/
theorem foldl_registerEntry (h : Consistent db) (parts : List Text) (idList : List ℕ) :
    ∃ db' ids, parts.foldl QualityExpressionDB.registerQualityExpressionEntry (db, idList) =
        (db', idList ++ ids) ∧
      (db.idIterator + newIds db parts < idLimit → Registered db db' parts ids) ∧
      (idLimit ≤ db.idIterator + newIds db parts → 0 ∈ ids) := by
  induction parts generalizing db idList with
  | nil =>
    refine ⟨db, [], by simp, fun _ => .nothing h, fun hlimit => ?_⟩
    have hbelow := h.below
    simp only [newIds, List.toFinset_nil, Finset.empty_sdiff, Finset.card_empty] at hlimit
    omega
  | cons part parts ih =>
    rw [List.foldl_cons]
    cases hset : db.qualityExpressionsSet.get? part with
    | some entry =>
      obtain ⟨db', ids, hrun, hlast, hout⟩ := ih h (idList ++ [entry.id])
      refine ⟨db', entry.id :: ids, ?_, ?_, ?_⟩
      · simp only [QualityExpressionDB.registerQualityExpressionEntry, hset, hrun,
          List.append_assoc, List.singleton_append]
      · rw [newIds_again (OrdMap.mem_keys.mpr ⟨entry, hset⟩)]
        exact fun hlimit => (registered_again h hset).append (hlast hlimit)
      · rw [newIds_again (OrdMap.mem_keys.mpr ⟨entry, hset⟩)]
        exact fun hlimit => List.mem_cons_of_mem _ (hout hlimit)
    | none =>
      have hnew : part ∉ db.qualityExpressionsSet.keys := fun hmem => by
        obtain ⟨entry, hentry⟩ := OrdMap.mem_keys.mp hmem
        rw [hset] at hentry
        cases hentry
      rw [newIds_withNext hnew]
      by_cases hnext : db.idIterator + 1 < idLimit
      · obtain ⟨db', ids, hrun, hlast, hout⟩ :=
          ih (consistent_withNext h hset hnext) (idList ++ [db.idIterator + 1])
        refine ⟨db', (db.idIterator + 1) :: ids, ?_, ?_, ?_⟩
        · simp only [QualityExpressionDB.registerQualityExpressionEntry, hset,
            Nat.mod_eq_of_lt hnext]
          rwa [List.append_assoc, List.singleton_append] at hrun
        · intro hlimit
          have hlimit' : (withNext db part).idIterator + newIds (withNext db part) parts <
              idLimit := by
            rw [withNext_idIterator]
            omega
          exact (registered_withNext h hset hnext).append (hlast hlimit')
        · intro hlimit
          have hlimit' : idLimit ≤
              (withNext db part).idIterator + newIds (withNext db part) parts := by
            rw [withNext_idIterator]
            omega
          exact List.mem_cons_of_mem _ (hout hlimit')
      · -- the iterator comes to zero
        have hzero : (db.idIterator + 1) % idLimit = 0 := by
          have hbelow := h.below
          rw [show db.idIterator + 1 = idLimit by omega, Nat.mod_self]
        have hids : ∀ (rest : List Text) (s : QualityExpressionDB × List ℕ), ∃ db' ids,
            rest.foldl QualityExpressionDB.registerQualityExpressionEntry s = (db', s.2 ++ ids) := by
          intro rest
          induction rest with
          | nil => exact fun s => ⟨s.1, [], by simp⟩
          | cons other rest ih =>
            intro s
            obtain ⟨db', ids, hrest⟩ :=
              ih (QualityExpressionDB.registerQualityExpressionEntry s other)
            rw [List.foldl_cons, hrest, QualityExpressionDB.registerQualityExpressionEntry]
            split
            · exact ⟨db', _, by rw [List.append_assoc]⟩
            · exact ⟨db', _, by rw [List.append_assoc]⟩
        obtain ⟨db', ids, hrest⟩ := hids parts
          (QualityExpressionDB.registerQualityExpressionEntry (db, idList) part)
        refine ⟨db', 0 :: ids, ?_, fun hlimit => by omega, fun _ => List.mem_cons_self⟩
        rw [hrest]
        simp only [QualityExpressionDB.registerQualityExpressionEntry, hset, hzero,
          List.append_assoc, List.singleton_append]

end Registering

section Runs

inductive DBCall where
  | register (expression : Text)
  | clear

def dbStep (db : QualityExpressionDB) : DBCall → Outcome QualityExpressionDB
  | .register expression => do
    let (db, _) ← QualityExpressionDB.registerQualityExpression expression (db, [])
    return db
  | .clear => .ok db.clear

/-- The ids last for what the call registers. -/
def IdsLast (db : QualityExpressionDB) : DBCall → Prop
  | .register expression => db.idIterator + newIds db (registeredParts expression) < idLimit
  | .clear => True

/-- While the ids last, every database that is reached is consistent. -/
theorem consistent_of_run {calls : List DBCall} {db : QualityExpressionDB}
    (hmeet : Outcome.StepsMeet IdsLast dbStep calls .new)
    (hrun : calls.foldlM dbStep .new = .ok db) : Consistent db := by
  refine Outcome.StepsMeet.invariant Consistent ?_ hmeet consistent_new hrun
  intro db call db' h hlast hstep
  cases call with
  | clear => exact Outcome.ok.inj hstep ▸ consistent_clear h
  | register expression =>
    obtain ⟨db'', ids, hfold, hregistered, -⟩ :=
      foldl_registerEntry h (registeredParts expression) []
    rw [dbStep, registerQualityExpression_eq, hfold, Outcome.ok_bind] at hstep
    exact Outcome.ok.inj hstep ▸ (hregistered hlast).consistent

/-- An expression that is registered again after a `clear` has a new id. -/
theorem consistent_of_run_again :
    Consistent ⟨2, OrdMap.empty.set ['a'] ⟨2, ['a']⟩, OrdMap.empty.set 2 ⟨2, ['a']⟩⟩ := by
  have hmeet : Outcome.StepsMeet IdsLast dbStep [.register ['a'], .clear, .register ['a']] .new := by
    refine ⟨?_, fun s hs => ⟨trivial, fun s' hs' => ⟨?_, fun _ _ => trivial⟩⟩⟩
    · show _ + newIds _ _ < idLimit
      decide +kernel
    · obtain rfl := Outcome.ok.inj hs
      obtain rfl := Outcome.ok.inj hs'
      show _ + newIds _ _ < idLimit
      decide +kernel
  exact consistent_of_run hmeet rfl

end Runs

/-- The sub-expressions are registered just if all of them are there, none has a separator
within parentheses, and the ids last. -/
theorem partsRegistered_iff (db : ConsistentDB) (idList : List ℕ) (expression : Text) :
    PartsRegistered db.toQualityExpressionDB idList expression ↔
      (∀ part ∈ topLevelParts expression, part ≠ [] ∧ ';' ∉ part) ∧
        db.idIterator + newIds db.toQualityExpressionDB (topLevelParts expression) < idLimit := by
  obtain ⟨db', ids, hrun, hlast, hout⟩ :=
    foldl_registerEntry db.consistent (registeredParts expression) idList
  have hcall : QualityExpressionDB.registerQualityExpression expression
      (db.toQualityExpressionDB, idList) = .ok (db', idList ++ ids) := by
    rw [registerQualityExpression_eq, hrun]
  constructor
  · rintro ⟨db'', ids', hcall', hregistered⟩
    rw [hcall] at hcall'
    obtain ⟨rfl, hids⟩ := Prod.mk.inj (Outcome.ok.inj hcall')
    obtain rfl := List.append_cancel_left hids
    have hlimit : db.idIterator + newIds db.toQualityExpressionDB (registeredParts expression) <
        idLimit := by
      by_contra hge
      obtain ⟨part, -, hpart⟩ := exists_of_forall₂ hregistered.lookUp (hout (not_lt.mp hge))
      exact lt_irrefl 0 hpart.1
    have hparts : registeredParts expression = (topLevelParts expression).filter (· ≠ []) :=
      Relator.RightUnique.forall₂ (fun _ _ _ hpart hpart' =>
        Outcome.ok.inj (hpart.2.symm.trans hpart'.2)) (hlast hlimit).lookUp hregistered.lookUp
    have hall := registeredParts_eq_iff.mp hparts
    rw [hparts, List.filter_eq_self.mpr fun part hpart => decide_eq_true (hall part hpart).1]
      at hlimit
    exact ⟨hall, hlimit⟩
  · rintro ⟨hall, hlimit⟩
    have hparts := registeredParts_eq_iff.mpr hall
    refine ⟨db', ids, hcall, ?_⟩
    rw [← hparts]
    refine hlast ?_
    rw [hparts, List.filter_eq_self.mpr fun part hpart => decide_eq_true (hall part hpart).1]
    exact hlimit

section Instances

/-- What follows the separator at the end is registered, though it is empty. -/
theorem not_partsRegistered : ¬ ∀ (db : ConsistentDB) (idList : List ℕ) (expression : Text),
    PartsRegistered db.toQualityExpressionDB idList expression := by
  intro h
  obtain ⟨db', ids, hcall, hregistered⟩ := h ⟨.new, consistent_new⟩ [] "a;".toList
  have htwo : ids.length = 2 := by
    rw [registerQualityExpression_eq] at hcall
    rw [← List.nil_append ids, ← (Prod.mk.inj (Outcome.ok.inj hcall)).2]
    decide +kernel
  have hone := hregistered.lookUp.length_eq
  rw [htwo] at hone
  revert hone
  decide +kernel

end Instances

end ReadexPtf.QualExpr.Database
