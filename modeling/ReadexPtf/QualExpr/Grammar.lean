import ReadexPtf.Lib.Long
import ReadexPtf.Lib.Precedence
import Mathlib

/-! The grammar of the quality expressions, the nodes that its actions build, and what these
nodes compute. -/
namespace ReadexPtf.QualExpr.Grammar

inductive Token where
  | semicolon | less | greater | le | ge | eq
  | plus | minus | star | slash
  | parenOpen | parenClose
  | colon | tilde | pipe | bang
  | number (ival : Long)
  | identifier (sval : String)
  deriving DecidableEq

inductive BinOperator where
  | list | lt | gt | le | ge | add | sub | mul | divi
  deriving DecidableEq, Repr

/-- An aggregator is known by its event and by its own name. -/
inductive QualExprComputeNode where
  | immediate (value : Long)
  | aggreg (eventName aggregName : String)
  | binOp (arithmetic : BinOperator) (lhs rhs : QualExprComputeNode)

def BinOperator.compute (a b : ℤ) : BinOperator → Outcome ℤ
  | .list => .ok a
  | .lt => .ok (if a < b then 1 else 0)
  | .gt => .ok (if a > b then 1 else 0)
  | .le => .ok (if a ≤ b then 1 else 0)
  | .ge => .ok (if a ≥ b then 1 else 0)
  | .add => checkedLong (a + b)
  | .sub => checkedLong (a - b)
  | .mul => checkedLong (a * b)
  | .divi => if b ≠ 0 then checkedLong (a.tdiv b) else .ok 0

/-- `measured` are the values of the aggregators. -/
def QualExprComputeNode.eval (measured : String → String → Long) :
    QualExprComputeNode → Outcome ℤ
  | .immediate value => .ok value
  | .aggreg eventName aggregName => .ok (measured eventName aggregName)
  | .binOp arithmetic lhs rhs => do
    let a ← lhs.eval measured
    let b ← rhs.eval measured
    arithmetic.compute a b

section Rules

/-- Those that have a node. -/
inductive Nonterminal where
  | qualIndexExpressionList
  | qualIndexEntryUnit
  | qualIndexEntryCompare
  | qualIndexEntryAddSub
  | qualIndexEntryMulDiv
  | qualIndexEntry
  | qualIndexAbsolute
  | qualIndexMeasure
  | qualIndexEventMeasure
  deriving DecidableEq

/-- The rules with one symbol on the right, which pass its node on. -/
def passedOn : Nonterminal → List Nonterminal
  | .qualIndexExpressionList => [.qualIndexEntryUnit]
  | .qualIndexEntryUnit => [.qualIndexEntryCompare]
  | .qualIndexEntryCompare => [.qualIndexEntryAddSub]
  | .qualIndexEntryAddSub => [.qualIndexEntryMulDiv]
  | .qualIndexEntryMulDiv => [.qualIndexEntry]
  | .qualIndexEntry => [.qualIndexAbsolute, .qualIndexMeasure]
  | .qualIndexMeasure => [.qualIndexEventMeasure]
  | .qualIndexAbsolute | .qualIndexEventMeasure => []

/-- The rules with an operator: the symbol behind it, and what the node computes. Before it is
the symbol of the rule itself. -/
def infixRule : Nonterminal → Token → Option (Nonterminal × BinOperator)
  | .qualIndexExpressionList, .semicolon => some (.qualIndexEntryUnit, .list)
  | .qualIndexEntryCompare, .less => some (.qualIndexEntryAddSub, .lt)
  | .qualIndexEntryCompare, .greater => some (.qualIndexEntryAddSub, .gt)
  | .qualIndexEntryCompare, .le => some (.qualIndexEntryAddSub, .le)
  | .qualIndexEntryCompare, .ge => some (.qualIndexEntryAddSub, .ge)
  | .qualIndexEntryAddSub, .plus => some (.qualIndexEntryMulDiv, .add)
  | .qualIndexEntryAddSub, .minus => some (.qualIndexEntryMulDiv, .sub)
  | .qualIndexEntryMulDiv, .star => some (.qualIndexEntry, .mul)
  | .qualIndexEntryMulDiv, .slash => some (.qualIndexEntry, .divi)
  | _, _ => none

/-- `EventComputation`, with the name of the aggregator. -/
def eventComputation : List Token → Option String
  | [.pipe, .identifier name] => some ("|" ++ name)
  | [.tilde, .identifier name] => some ("~" ++ name)
  | [.plus, .identifier name] => some ("+" ++ name)
  | [.minus, .identifier name] => some ("-" ++ name)
  | [.bang] => some "!"
  | _ => none

/-- `EventName`: the tokens, and the name that is made of them. -/
def eventNameTokens (namespaceName name : String) : List Token :=
  [.identifier namespaceName, .colon, .colon, .identifier name]

def eventName (namespaceName name : String) : String := namespaceName ++ "::" ++ name

/-- What the parser accepts, and the node it builds: an event or an aggregator that is not
`known` is an error. -/
inductive Derives (known : String → String → Bool) :
    Nonterminal → List Token → QualExprComputeNode → Prop
  | pass {symbol symbol' tokens node} : symbol' ∈ passedOn symbol →
    Derives known symbol' tokens node → Derives known symbol tokens node
  | operation {symbol token symbol' arithmetic left right lhs rhs} :
    infixRule symbol token = some (symbol', arithmetic) → Derives known symbol left lhs →
    Derives known symbol' right rhs →
    Derives known symbol (left ++ token :: right) (.binOp arithmetic lhs rhs)
  | parentheses {tokens node} : Derives known .qualIndexEntryUnit tokens node →
    Derives known .qualIndexEntry (.parenOpen :: (tokens ++ [.parenClose])) node
  | number (value : Long) : Derives known .qualIndexAbsolute [.number value] (.immediate value)
  | computation {namespaceName name tokens aggregName} :
    eventComputation tokens = some aggregName →
    known (eventName namespaceName name) aggregName →
    Derives known .qualIndexEventMeasure
      (eventNameTokens namespaceName name ++ .colon :: tokens)
      (.aggreg (eventName namespaceName name) aggregName)
  | event {namespaceName name} : known (eventName namespaceName name) "!" →
    Derives known .qualIndexEventMeasure (eventNameTokens namespaceName name)
      (.aggreg (eventName namespaceName name) "!")

/-- An expression that is not empty, with the node that is its result. -/
structure AcceptedExpression (known : String → String → Bool) where
  tokens : List Token
  node : QualExprComputeNode
  derives : Derives known .qualIndexExpressionList tokens node

end Rules

section Standard

/-- How much an operator binds. -/
def level : Token → Option ℕ
  | .semicolon => some 0
  | .less | .greater | .le | .ge => some 1
  | .plus | .minus => some 2
  | .star | .slash => some 3
  | _ => none

def operatorOf : Token → Option BinOperator
  | .semicolon => some .list
  | .less => some .lt
  | .greater => some .gt
  | .le => some .le
  | .ge => some .ge
  | .plus => some .add
  | .minus => some .sub
  | .star => some .mul
  | .slash => some .divi
  | _ => none

/-- A number, or the measure of an event. -/
def atom : List Token → Option QualExprComputeNode
  | [.number value] => some (.immediate value)
  | [.identifier namespaceName, .colon, .colon, .identifier name] =>
    some (.aggreg (eventName namespaceName name) "!")
  | .identifier namespaceName :: .colon :: .colon :: .identifier name :: .colon :: tokens =>
    (eventComputation tokens).map (.aggreg (eventName namespaceName name))
  | _ => none

def Token.isOpen : Token → Bool
  | .parenOpen => true
  | _ => false

def Token.isClose : Token → Bool
  | .parenClose => true
  | _ => false

def Token.isColon : Token → Bool
  | .colon => true
  | _ => false

/-- The usual notation: operators of one level are read from the left. What follows a colon is
part of a measure. -/
def usualNotation : InfixNotation Token QualExprComputeNode where
  opens := Token.isOpen
  closes := Token.isClose
  joins := Token.isColon
  level
  levels := 4
  combine token lhs rhs := (operatorOf token).map fun arithmetic => .binOp arithmetic lhs rhs
  atom
  plain token k h := by
    cases token <;> first | exact ⟨rfl, rfl, rfl⟩ | cases h
  opening token h := by
    cases token <;> first | exact ⟨rfl, rfl⟩ | cases h
  closing token h := by
    cases token <;> first | exact ⟨rfl, rfl⟩ | cases h

def standardReading (tokens : List Token) : Option QualExprComputeNode :=
  usualNotation.read (tokens.length + 1) tokens

/-- A quotient by zero is zero. -/
def BinOperator.value (a b : ℤ) : BinOperator → ℤ
  | .list => a
  | .lt => if a < b then 1 else 0
  | .gt => if b < a then 1 else 0
  | .le => if a ≤ b then 1 else 0
  | .ge => if b ≤ a then 1 else 0
  | .add => a + b
  | .sub => a - b
  | .mul => a * b
  | .divi => a.tdiv b

/-- The value of an expression in the integers. -/
def QualExprComputeNode.value (measured : String → String → Long) : QualExprComputeNode → ℤ
  | .immediate value => value
  | .aggreg eventName aggregName => measured eventName aggregName
  | .binOp arithmetic lhs rhs => arithmetic.value (lhs.value measured) (rhs.value measured)

/-- The sub-expressions. -/
def QualExprComputeNode.parts : QualExprComputeNode → List QualExprComputeNode
  | .immediate value => [.immediate value]
  | .aggreg eventName aggregName => [.aggreg eventName aggregName]
  | .binOp arithmetic lhs rhs => .binOp arithmetic lhs rhs :: (lhs.parts ++ rhs.parts)

/-- The node computes what the expression means, and no step of it is undefined. -/
def EvaluatesStandard {known : String → String → Bool} (expression : AcceptedExpression known)
    (measured : String → String → Long) : Prop :=
  ∃ standard, standardReading expression.tokens = some standard ∧
    expression.node.eval measured = .ok (standard.value measured)

end Standard

section Reading
variable {known : String → String → Bool} {symbol : Nonterminal} {tokens : List Token}
  {node : QualExprComputeNode}

/-- The levels of the operators that a symbol has outside of parentheses start here. -/
def rank : Nonterminal → ℕ
  | .qualIndexExpressionList => 0
  | .qualIndexEntryUnit | .qualIndexEntryCompare => 1
  | .qualIndexEntryAddSub => 2
  | .qualIndexEntryMulDiv => 3
  | _ => 4

theorem rank_passedOn :
    ∀ symbol, ∀ symbol' ∈ passedOn symbol, rank symbol ≤ rank symbol' := by
  intro symbol
  cases symbol <;> decide

/-- A rule with an operator is of the operator's level, and reads more binding ones behind it. -/
theorem infixRule_spec {token : Token} {symbol' : Nonterminal} {arithmetic : BinOperator}
    (h : infixRule symbol token = some (symbol', arithmetic)) :
    level token = some (rank symbol) ∧ rank symbol' = rank symbol + 1 ∧ rank symbol < 4 ∧
      operatorOf token = some arithmetic := by
  rw [infixRule.eq_def] at h
  split at h
  all_goals first
    | cases h
      exact ⟨rfl, rfl, by decide, rfl⟩
    | cases h

theorem eventComputation_cases {aggregName : String}
    (h : eventComputation tokens = some aggregName) :
    tokens = [.bang] ∨ ∃ token name, tokens = [token, .identifier name] ∧ token.isOpen = false ∧
      token.isClose = false ∧ token.isColon = false := by
  rw [eventComputation.eq_def] at h
  split at h
  · exact .inr ⟨_, _, rfl, rfl, rfl, rfl⟩
  · exact .inr ⟨_, _, rfl, rfl, rfl, rfl⟩
  · exact .inr ⟨_, _, rfl, rfl, rfl, rfl⟩
  · exact .inr ⟨_, _, rfl, rfl, rfl, rfl⟩
  · exact .inl rfl
  · cases h

/-- What is read without being divided. -/
structure Undivided (tokens : List Token) (node : QualExprComputeNode) : Prop where
  operand : usualNotation.Operand tokens
  whole : ∀ k, usualNotation.splitLast k (0, false) tokens = none
  atom_eq : usualNotation.atom tokens = some node
  starts : ∃ token rest, tokens = token :: rest ∧ token.isOpen = false

theorem undivided_number (value : Long) : Undivided [.number value] (.immediate value) where
  operand := ⟨fun _ => rfl, fun _ _ => rfl⟩
  whole _ := rfl
  atom_eq := rfl
  starts := ⟨_, _, rfl, rfl⟩

theorem level_eventNameTokens (namespaceName name : String) :
    ∀ token ∈ eventNameTokens namespaceName name, level token = none := by
  simp [eventNameTokens, level]

theorem undivided_event (namespaceName name : String) :
    Undivided (eventNameTokens namespaceName name) (.aggreg (eventName namespaceName name) "!") where
  operand := ⟨fun _ => rfl, fun _ _ => rfl⟩
  whole _ := rfl
  atom_eq := rfl
  starts := ⟨_, _, rfl, rfl⟩

theorem undivided_computation {aggregName : String} (namespaceName name : String)
    (h : eventComputation tokens = some aggregName) :
    Undivided (eventNameTokens namespaceName name ++ .colon :: tokens)
      (.aggreg (eventName namespaceName name) aggregName) := by
  have hatom : usualNotation.atom (eventNameTokens namespaceName name ++ .colon :: tokens) =
      some (.aggreg (eventName namespaceName name) aggregName) := by
    change (eventComputation tokens).map _ = _
    rw [h]
    rfl
  obtain rfl | ⟨token, aggreg, rfl, hopens, hcloses, hcolon⟩ := eventComputation_cases h
  · exact ⟨⟨fun _ => rfl, fun _ _ => rfl⟩, fun _ => rfl, hatom, _, _, rfl, rfl⟩
  · have hadvance : ∀ depth, usualNotation.advance (depth, true) token = (depth, false) := by
      intro depth
      simp [InfixNotation.advance, usualNotation, hopens, hcloses, hcolon]
    have hsplit : ∀ k depth, usualNotation.splitLast k (depth, true) [token, .identifier aggreg] =
        none := by
      intro k depth
      refine InfixNotation.splitLast_cons_none ?_ fun hs => by cases hs.1
      rw [hadvance]
      exact InfixNotation.splitLast_cons_none rfl fun hs => by cases hs.2
    have hname : ∀ k depth, usualNotation.splitLast k (depth, false)
        (eventNameTokens namespaceName name ++ [.colon, token, .identifier aggreg]) = none := by
      intro k depth
      refine InfixNotation.splitLast_append_none ?_
        (InfixNotation.splitLast_none_of_level (level_eventNameTokens namespaceName name))
      exact InfixNotation.splitLast_cons_none (hsplit k depth) fun hs => by cases hs.2
    refine ⟨⟨fun depth => ?_, fun k depth => hname k _⟩, fun k => hname k 0, hatom, _, _, rfl, rfl⟩
    rw [List.foldl_append]
    change [token, .identifier aggreg].foldl usualNotation.advance (depth, true) = _
    rw [List.foldl_cons, hadvance]
    rfl

theorem Undivided.read_eq (h : Undivided tokens node) {fuel : ℕ} (hfuel : tokens.length < fuel) :
    usualNotation.read fuel tokens = some node := by
  obtain ⟨token, rest, rfl, hopens⟩ := h.starts
  obtain ⟨fuel, rfl⟩ := Nat.exists_eq_succ_of_ne_zero (Nat.ne_zero_of_lt hfuel)
  rw [Nat.succ_eq_add_one, InfixNotation.read_atom h.whole hopens]
  exact h.atom_eq

/-- What a symbol derives has its operators from the rank of the symbol on, and reads as the node
that the actions build. -/
structure ReadsAs (symbol : Nonterminal) (tokens : List Token) (node : QualExprComputeNode) :
    Prop where
  operand : usualNotation.Operand tokens
  above : ∀ k < rank symbol, usualNotation.splitLast k (0, false) tokens = none
  reads : ∀ fuel, tokens.length < fuel → usualNotation.read fuel tokens = some node

theorem Undivided.readsAs (h : Undivided tokens node) (symbol : Nonterminal) :
    ReadsAs symbol tokens node :=
  ⟨h.operand, fun k _ => h.whole k, fun _ => h.read_eq⟩

theorem readsAs_operation {token : Token} {symbol' : Nonterminal} {arithmetic : BinOperator}
    {left right : List Token} {lhs rhs : QualExprComputeNode}
    (hrule : infixRule symbol token = some (symbol', arithmetic))
    (hleft : ReadsAs symbol left lhs) (hright : ReadsAs symbol' right rhs) :
    ReadsAs symbol (left ++ token :: right) (.binOp arithmetic lhs rhs) := by
  obtain ⟨hlevel, hrank, hbound, hoperator⟩ := infixRule_spec hrule
  have hbelow : ∀ k ≤ rank symbol, usualNotation.splitLast k (0, false) right = none :=
    fun k hk => hright.above k (by omega)
  refine ⟨hleft.operand.operation hlevel hright.operand, fun k hk => ?_, fun fuel hfuel => ?_⟩
  · exact InfixNotation.splitLast_other hlevel (Nat.ne_of_gt hk) hleft.operand
      (hleft.above k hk) (hbelow k hk.le)
  · obtain ⟨fuel, rfl⟩ := Nat.exists_eq_succ_of_ne_zero (Nat.ne_zero_of_lt hfuel)
    rw [List.length_append, List.length_cons] at hfuel
    rw [Nat.succ_eq_add_one, InfixNotation.read_operation hbound hlevel hleft.operand hleft.above
      hbelow, hleft.reads fuel (by omega), hright.reads fuel (by omega)]
    change (operatorOf token).map _ = _
    rw [hoperator]
    rfl

theorem readsAs_parentheses (h : ReadsAs .qualIndexEntryUnit tokens node) :
    ReadsAs .qualIndexEntry (.parenOpen :: (tokens ++ [.parenClose])) node := by
  refine ⟨h.operand.brackets rfl rfl, fun k _ => InfixNotation.splitLast_brackets rfl h.operand 0,
    fun fuel hfuel => ?_⟩
  obtain ⟨fuel, rfl⟩ := Nat.exists_eq_succ_of_ne_zero (Nat.ne_zero_of_lt hfuel)
  rw [List.length_cons, List.length_append] at hfuel
  rw [Nat.succ_eq_add_one, InfixNotation.read_brackets rfl h.operand]
  exact h.reads fuel (by omega)

theorem Derives.readsAs (h : Derives known symbol tokens node) : ReadsAs symbol tokens node := by
  induction h with
  | pass hpass _ ih =>
    exact ⟨ih.operand, fun k hk => ih.above k (hk.trans_le (rank_passedOn _ _ hpass)), ih.reads⟩
  | operation hrule _ _ ihleft ihright => exact readsAs_operation hrule ihleft ihright
  | parentheses _ ih => exact readsAs_parentheses ih
  | number value => exact (undivided_number value).readsAs _
  | computation htokens _ => exact (undivided_computation _ _ htokens).readsAs _
  | event _ => exact (undivided_event _ _).readsAs _

/-- The tree that is built is that of the usual notation. -/
theorem AcceptedExpression.standardReading_eq (expression : AcceptedExpression known) :
    standardReading expression.tokens = some expression.node :=
  expression.derives.readsAs.reads _ (Nat.lt_succ_self _)

end Reading

section Evaluation
variable {measured : String → String → Long}

theorem compute_eq_ok {a b v : ℤ} (ha : FitsLong a) (arithmetic : BinOperator) :
    arithmetic.compute a b = .ok v ↔
      FitsLong (arithmetic.value a b) ∧ arithmetic.value a b = v := by
  have hone : ∀ c : Prop, [Decidable c] → FitsLong (if c then 1 else 0) := by
    intro c _
    split_ifs
    · decide
    · decide
  cases arithmetic with
  | list => simp [BinOperator.compute, BinOperator.value, ha]
  | lt | gt | le | ge => simp [BinOperator.compute, BinOperator.value, hone]
  | add | sub | mul => exact checkedLong_eq_ok
  | divi =>
    rw [BinOperator.compute, BinOperator.value]
    by_cases hb : b = 0
    · rw [if_neg (not_not.mpr hb), hb, Int.tdiv_zero, Outcome.ok.injEq]
      exact ⟨fun h => ⟨by decide, h⟩, fun h => h.2⟩
    · rw [if_pos hb, checkedLong_eq_ok]

/-- An evaluation is defined just if the values of all sub-expressions fit. -/
theorem eval_eq_ok {node : QualExprComputeNode} {v : ℤ} : node.eval measured = .ok v ↔
    (∀ part ∈ node.parts, FitsLong (part.value measured)) ∧ node.value measured = v := by
  induction node generalizing v with
  | immediate value =>
    simp [QualExprComputeNode.eval, QualExprComputeNode.parts, QualExprComputeNode.value,
      value.2]
  | aggreg eventName aggregName =>
    simp [QualExprComputeNode.eval, QualExprComputeNode.parts, QualExprComputeNode.value,
      (measured eventName aggregName).2]
  | binOp arithmetic lhs rhs ihlhs ihrhs =>
    have hself : ∀ {node : QualExprComputeNode},
        (∀ part ∈ node.parts, FitsLong (part.value measured)) → FitsLong (node.value measured) :=
      fun {node} h => h node (by cases node <;> simp [QualExprComputeNode.parts])
    simp only [QualExprComputeNode.eval, QualExprComputeNode.parts, Outcome.bind_eq_ok, ihlhs,
      ihrhs, List.forall_mem_cons, List.forall_mem_append]
    constructor
    · rintro ⟨a, ⟨hlhs, rfl⟩, b, ⟨hrhs, rfl⟩, hcompute⟩
      obtain ⟨hfits, hvalue⟩ := (compute_eq_ok (hself hlhs) arithmetic).mp hcompute
      exact ⟨⟨hfits, hlhs, hrhs⟩, hvalue⟩
    · rintro ⟨⟨hfits, hlhs, hrhs⟩, hvalue⟩
      exact ⟨_, ⟨hlhs, rfl⟩, _, ⟨hrhs, rfl⟩,
        (compute_eq_ok (hself hlhs) arithmetic).mpr ⟨hfits, hvalue⟩⟩

end Evaluation

/-- The evaluation gives the value of the expression just if the values of all sub-expressions, in
the integers, fit into 64 bits. -/
theorem evaluatesStandard_iff {known : String → String → Bool}
    (expression : AcceptedExpression known) (measured : String → String → Long) :
    EvaluatesStandard expression measured ↔ ∀ standard ∈ standardReading expression.tokens,
      ∀ part ∈ standard.parts, FitsLong (part.value measured) := by
  rw [EvaluatesStandard, expression.standardReading_eq]
  simp only [Option.some.injEq, Option.mem_def, forall_eq', exists_eq_left', eval_eq_ok, and_true]

section Instances
variable {known : String → String → Bool}

theorem derives_number (value : Long) {symbol : Nonterminal}
    (h : symbol ∈ [Nonterminal.qualIndexEntryAddSub, .qualIndexEntryMulDiv, .qualIndexEntry]) :
    Derives known symbol [.number value] (.immediate value) := by
  have hentry : Derives known .qualIndexEntry [.number value] (.immediate value) :=
    .pass (by decide) (.number value)
  have hmulDiv : Derives known .qualIndexEntryMulDiv [.number value] (.immediate value) :=
    .pass (by decide) hentry
  rw [List.mem_cons, List.mem_cons, List.mem_singleton] at h
  rcases h with rfl | rfl | rfl
  · exact .pass (by decide) hmulDiv
  · exact hmulDiv
  · exact hentry

theorem derives_parentheses {tokens : List Token} {node : QualExprComputeNode}
    (h : Derives known .qualIndexEntryAddSub tokens node) :
    Derives known .qualIndexEntry (.parenOpen :: (tokens ++ [.parenClose])) node := by
  have hcompare : Derives known .qualIndexEntryCompare tokens node := .pass (by decide) h
  exact .parentheses (.pass (by decide) hcompare)

theorem derives_of_mulDiv {tokens : List Token} {node : QualExprComputeNode}
    (h : Derives known .qualIndexEntryMulDiv tokens node) :
    Derives known .qualIndexExpressionList tokens node := by
  have haddSub : Derives known .qualIndexEntryAddSub tokens node := .pass (by decide) h
  have hcompare : Derives known .qualIndexEntryCompare tokens node := .pass (by decide) haddSub
  have hunit : Derives known .qualIndexEntryUnit tokens node := .pass (by decide) hcompare
  exact .pass (by decide) hunit

def zero : Long := ⟨0, by decide⟩
def one : Long := ⟨1, by decide⟩
def greatest : Long := ⟨9223372036854775807, by decide⟩

theorem derives_sub {tokens : List Token} {node : QualExprComputeNode}
    (h : Derives known .qualIndexEntryAddSub tokens node) (value : Long) :
    Derives known .qualIndexEntryAddSub (tokens ++ [.minus, .number value])
      (.binOp .sub node (.immediate value)) :=
  .operation rfl h (derives_number value (by decide))

def least : List Token := [.number zero] ++ [.minus, .number greatest] ++ [.minus, .number one]

def minusOne : List Token := [.number zero] ++ [.minus, .number one]

/-- `(0 - 9223372036854775807 - 1) / (0 - 1)` -/
def extremes : AcceptedExpression known where
  tokens := (.parenOpen :: (least ++ [.parenClose])) ++
    .slash :: (.parenOpen :: (minusOne ++ [.parenClose]))
  node := .binOp .divi
    (.binOp .sub (.binOp .sub (.immediate zero) (.immediate greatest)) (.immediate one))
    (.binOp .sub (.immediate zero) (.immediate one))
  derives := by
    have hzero : Derives known .qualIndexEntryAddSub [.number zero] (.immediate zero) :=
      derives_number zero (by decide)
    have hleast := derives_parentheses (derives_sub (derives_sub hzero greatest) one)
    have hminusOne := derives_parentheses (derives_sub hzero one)
    have hrule : infixRule .qualIndexEntryMulDiv .slash = some (.qualIndexEntry, .divi) := rfl
    exact derives_of_mulDiv (.operation hrule (.pass (by decide) hleast) hminusOne)

/-- The quotient of the least number by minus one does not fit. -/
theorem not_evaluatesStandard : ¬ ∀ (known : String → String → Bool)
    (expression : AcceptedExpression known) (measured : String → String → Long),
    EvaluatesStandard expression measured := by
  intro h
  obtain ⟨standard, -, heval⟩ := h (fun _ _ => false) extremes fun _ _ => zero
  have hundefined : (@extremes fun _ _ => false).node.eval (fun _ _ => zero) = .undefined := rfl
  rw [hundefined] at heval
  cases heval

end Instances

end ReadexPtf.QualExpr.Grammar
