import Mathlib
import Reachability.Proofs.Execution.Faults
import Reachability.Source.Lowering
import Reachability.Text.Letter

/-!
# Reading the text of an expression

Only binary operands stand in brackets, and a minus may be the sign of a literal,
a unary operator or a binary one.  Still, a text can be read back.  A reader that
takes every minus before an operand for an operator finds the expression except
for positions, the name of an unnamed source and the sign of a literal.  None of
these matters for evaluation, so expressions with one text have one meaning.
-/

namespace Reachability

namespace Text

def isIdentifier : List Char → Bool
  | [] => false
  | first :: rest => isNameStart first && rest.all isNameChar

/-- An identifier, which a mark and a number may follow. -/
def IsVariable (name : List Char) : Prop :=
  isIdentifier name = true ∨ ∃ base number, name = base ++ '#' :: number ∧
    isIdentifier base = true ∧ number ≠ [] ∧ ∀ digit ∈ number, digit.isDigit = true

/-- Whether a character may stand in the text of a name or of a number. -/
def isWordChar (char : Char) : Bool := isNameChar char || char == '#'

/-- A name, or a number if it does not begin like a name. -/
structure IsWord (named : Bool) (word : List Char) : Prop where
  starts : word.head?.map isNameStart = some named
  all : ∀ char ∈ word, isWordChar char = true

theorem classes_of_isDigit {char : Char} (digit : char.isDigit = true) :
    isNameStart char = false ∧ isWordChar char = true := by
  obtain ⟨lower, upper⟩ := Char.isDigit_iff_toNat.mp digit
  rw [← Char.ofNat_toNat char]
  generalize char.toNat = code at lower upper
  change 48 ≤ code at lower
  change code ≤ 57 at upper
  interval_cases code <;> decide

theorem isWord_of_isIdentifier {word : List Char} (identifier : isIdentifier word = true) :
    IsWord true word := by
  cases word with
  | nil => cases identifier
  | cons first rest =>
    obtain ⟨starts, all⟩ := (Bool.and_eq_true _ _).mp identifier
    rw [List.all_eq_true] at all
    refine ⟨congrArg some starts, List.forall_mem_cons.mpr ⟨?_, fun char member => ?_⟩⟩
    · simp [isWordChar, isNameChar, starts]
    · simp [isWordChar, all char member]

theorem IsVariable.isWord {word : List Char} (name : IsVariable word) : IsWord true word := by
  rcases name with identifier | ⟨base, number, rfl, identifier, -, digits⟩
  · exact isWord_of_isIdentifier identifier
  · obtain ⟨starts, all⟩ := isWord_of_isIdentifier identifier
    refine ⟨by cases base <;> simp_all, List.forall_mem_append.mpr ⟨all, ?_⟩⟩
    exact List.forall_mem_cons.mpr ⟨rfl,
      fun char member => (classes_of_isDigit (digits char member)).2⟩

theorem isWord_toDigits (number : Nat) : IsWord false (Nat.toDigits 10 number) := by
  have digits : ∀ char ∈ Nat.toDigits 10 number, char.isDigit = true :=
    fun char => Nat.isDigit_of_mem_toDigits (by decide) (by decide)
  refine ⟨?_, fun char member => (classes_of_isDigit (digits char member)).2⟩
  cases written : Nat.toDigits 10 number with
  | nil => exact absurd written Nat.toDigits_ne_nil
  | cons first rest => exact congrArg some (classes_of_isDigit (digits first (by simp [written]))).1

/-- A run of characters of a class ends where a character outside the class follows. -/
theorem cut_run {inClass : Char → Bool} {run rest : List Char}
    (inside : ∀ char ∈ run, inClass char = true)
    (outside : ∀ char ∈ rest.head?, inClass char = false) :
    (run ++ rest).takeWhile inClass = run ∧ (run ++ rest).dropWhile inClass = rest := by
  rw [List.takeWhile_append_of_pos inside, List.dropWhile_append_of_pos inside]
  cases rest with
  | nil => simp
  | cons char rest => simp [outside char rfl]

end Text

open Text

namespace Expr

/-- Whether all names in the expression are identifiers; those of variables may have a number, and a
source may be unnamed. -/
def WellNamed : Expr → Prop
  | var _ name => IsVariable name.toList
  | nondet _ source => source = "" ∨ Text.isIdentifier source.toList = true
  | unary _ _ operand => operand.WellNamed
  | binary _ _ left right => left.WellNamed ∧ right.WellNamed
  | literal .. | foreign .. | missing => True

/-- Expressions that pass the survey, with operators that have a meaning and with proper names. -/
structure Legible (expr : Expr) : Prop where
  accepted : expr.defect? = none
  known : expr.usesUnknown = false
  named : expr.WellNamed

variable {pos : Nat} {op : Operator} {operand left right expr : Expr}

theorem Legible.unary (legible : (unary pos op operand).Legible) :
    op.isUnary = true ∧ operand.Legible := by
  obtain ⟨isUnary, accepted⟩ := defect?_unary legible.accepted
  exact ⟨isUnary, accepted, usesUnknown_unary.symm.trans legible.known, legible.named⟩

theorem Legible.binary (legible : (binary pos op left right).Legible) :
    op.isUnary = false ∧ op ≠ .unknown ∧ left.Legible ∧ right.Legible := by
  obtain ⟨isBinary, leftAccepted, rightAccepted⟩ := defect?_binary legible.accepted
  have known := legible.known
  simp only [usesUnknown_binary, Bool.or_eq_false_iff, decide_eq_false_iff_not] at known
  exact ⟨isBinary, known.1.1, ⟨leftAccepted, known.1.2, legible.named.1⟩,
    ⟨rightAccepted, known.2, legible.named.2⟩⟩

/-! ## The reader -/

/-- What a word stands for: a source of values if it is called, else a variable or a literal. -/
def ofWord (word : List Char) : List Char → Expr × List Char
  | '(' :: rest => (nondet 0 (.ofList word), rest.tail)
  | rest =>
    if word.head?.any isNameStart then (var 0 (.ofList word), rest)
    else (literal 0 (.ofNat (Nat.ofDigitChars 10 word 0)), rest)

/-- Reads one operand, or two with an operator between them. -/
def readWhole (readOperand : List Char → Option (Expr × List Char)) (text : List Char) :
    Option (Expr × List Char) := do
  let (left, rest) ← readOperand text
  match rest with
  | ' ' :: rest =>
    let op ← Source.binaryOperator? (.ofList (rest.takeWhile (· != ' ')))
    let (right, rest) ← readOperand (rest.dropWhile (· != ' ')).tail
    some (binary 0 op left right, rest)
  | rest => some (left, rest)

/-- Reads an operand at the beginning of a text and returns the rest of the text. -/
def read : Nat → List Char → Option (Expr × List Char)
  | depth + 1, first :: rest =>
    if isWordChar first then
      some (ofWord ((first :: rest).takeWhile isWordChar) ((first :: rest).dropWhile isWordChar))
    else if first = '(' then
      (readWhole (read depth) rest).map fun (expr, rest) => (expr, rest.tail)
    else
      (read depth rest).map fun (operand, rest) =>
        (unary 0 (if first = '!' then .not else .neg) operand, rest)
  | _, _ => none

/-- What the reader finds: there are no positions, all sources have names, and a sign is an
operator. -/
def bare : Expr → Expr
  | literal _ value =>
    match value.toInt with
    | .ofNat size => literal 0 (.ofNat size)
    | .negSucc size => unary 0 .neg (literal 0 (.ofNat (size + 1)))
  | var _ name => var 0 name
  | nondet _ source => nondet 0 (if source = "" then "nondet" else source)
  | unary _ op operand => unary 0 op operand.bare
  | binary _ op left right => binary 0 op left.bare right.bare
  | foreign kind text => foreign kind text
  | missing => missing

/-- What follows an operand neither continues a word nor calls it. -/
def Stops (rest : List Char) : Prop := ∀ char ∈ rest.head?, isWordChar char = false ∧ char ≠ '('

theorem stops_cons (char : Char) (outside : isWordChar char = false ∧ char ≠ '(')
    (rest : List Char) : Stops (char :: rest) := by
  rintro _ ⟨⟩
  exact outside

/-- The reader finds an expression in its text, as an operand and as a whole. -/
structure Readable (expr : Expr) (text : String) (depth : Nat) : Prop where
  operand : ∀ rest, Stops rest →
    read depth ((parenthesize expr text).toList ++ rest) = some (expr.bare, rest)
  whole : ∀ rest, Stops rest → rest.head? ≠ some ' ' →
    readWhole (read depth) (text.toList ++ rest) = some (expr.bare, rest)

/-- A single operand is the whole if no operator follows. -/
theorem Readable.single {text : String} {depth : Nat} (single : expr.isBinary = false)
    (operand : ∀ rest, Stops rest → read depth (text.toList ++ rest) = some (expr.bare, rest)) :
    Readable expr text depth := by
  refine ⟨by simpa [parenthesize, single] using operand, fun rest stops ends => ?_⟩
  simp only [readWhole, operand rest stops, Option.bind_eq_bind, Option.bind_some]
  split
  · exact absurd rfl ends
  · rfl

theorem read_word {named : Bool} {word rest : List Char} (isWord : IsWord named word)
    (outside : ∀ char ∈ rest.head?, isWordChar char = false) (depth : Nat) :
    read (depth + 1) (word ++ rest) = some (ofWord word rest) := by
  obtain ⟨whole, following⟩ := cut_run isWord.all outside
  cases word with
  | nil => cases isWord.starts
  | cons first word =>
    rw [List.cons_append] at *
    simp only [read, isWord.all first List.mem_cons_self, if_true, whole, following]

theorem ofWord_of_stops {named : Bool} {word rest : List Char} (isWord : IsWord named word)
    (stops : Stops rest) : ofWord word rest =
      (if named then var 0 (.ofList word) else literal 0 (.ofNat (Nat.ofDigitChars 10 word 0)),
        rest) := by
  have starts : word.head?.any isNameStart = named := by
    have starts := isWord.starts
    cases word <;> simp_all
  unfold ofWord
  split
  · exact absurd rfl (stops '(' rfl).2
  · rw [starts]
    cases named <;> rfl

theorem read_single {named : Bool} {word rest : List Char} (isWord : IsWord named word)
    (stops : Stops rest) (depth : Nat) : read (depth + 1) (word ++ rest) = some
      (if named then var 0 (.ofList word) else literal 0 (.ofNat (Nat.ofDigitChars 10 word 0)),
        rest) := by
  rw [read_word isWord fun char member => (stops char member).1, ofWord_of_stops isWord stops]

theorem read_unary (isUnary : op.isUnary = true) (rest : List Char) (depth : Nat) :
    read (depth + 1) (op.text.toList ++ rest) =
      (read depth rest).map fun (operand, rest) => (unary 0 op operand, rest) := by
  cases op with
  | not | neg => rfl
  | _ => cases isUnary

theorem readable_literal (pos : Nat) (value : Int64) (depth : Nat) :
    Readable (literal pos value) (toString value.toInt) (depth + 2) := by
  refine .single rfl fun rest stops => ?_
  cases found : value.toInt with
  | ofNat size =>
    have digits : (toString (Int.ofNat size)).toList = Nat.toDigits 10 size := Nat.toList_repr
    rw [digits, read_single (isWord_toDigits size) stops]
    simp [bare, found]
  | negSucc size =>
    have digits : (toString (Int.negSucc size)).toList =
        Operator.neg.text.toList ++ Nat.toDigits 10 (size + 1) := by
      rw [← Nat.toList_repr]
      exact String.toList_append
    rw [digits, List.append_assoc, read_unary rfl, read_single (isWord_toDigits _) stops]
    simp [bare, found]

theorem readable_var {name : String} (isWord : IsWord true name.toList) (depth : Nat) :
    Readable (var pos name) name (depth + 1) := by
  refine .single rfl fun rest stops => ?_
  rw [read_single isWord stops]
  simp [bare]

theorem readable_nondet {source name : String}
    (called : (if source = "" then "nondet" else source) = name)
    (isWord : IsWord true name.toList) (depth : Nat) :
    Readable (nondet pos source) (name ++ "()") (depth + 1) := by
  refine .single rfl fun rest stops => ?_
  have opening : ∀ char ∈ ("()".toList ++ rest).head?, isWordChar char = false := by
    rintro _ ⟨⟩
    decide
  rw [String.toList_append, List.append_assoc, read_word isWord opening]
  simp [ofWord, bare, called]

theorem readable_unary {text : String} {depth : Nat} (isUnary : op.isUnary = true)
    (readable : Readable operand text depth) :
    Readable (unary pos op operand) (op.text ++ parenthesize operand text) (depth + 1) := by
  refine .single rfl fun rest stops => ?_
  rw [String.toList_append, List.append_assoc, read_unary isUnary, readable.operand rest stops]
  rfl

theorem operator_found (isBinary : op.isUnary = false) (known : op ≠ .unknown) :
    Source.binaryOperator? op.text = some op := by
  cases op with
  | arith op | compare op => cases op <;> rfl
  | and | or => rfl
  | not | neg => cases isBinary
  | unknown => exact absurd rfl known

theorem ne_blank_of_mem_text (op : Operator) {char : Char} (member : char ∈ op.text.toList) :
    (char != ' ') = true := by
  have noBlank : ' ' ∉ op.text.toList := by
    cases op with
    | arith op => cases op <;> simp [Operator.text, Arithmetic.text]
    | compare op => cases op <;> simp [Operator.text, Comparison.text]
    | _ => simp [Operator.text]
  exact bne_iff_ne.mpr fun blank => noBlank (blank ▸ member)

theorem readWhole_binary {first second : String} {depth : Nat} (isBinary : op.isUnary = false)
    (known : op ≠ .unknown) (leftReadable : Readable left first depth)
    (rightReadable : Readable right second depth) {rest : List Char} (stops : Stops rest) :
    readWhole (read depth) ((parenthesize left first ++ " " ++ op.text ++ " " ++
      parenthesize right second).toList ++ rest) =
        some (binary 0 op left.bare right.bare, rest) := by
  have outside : ∀ char ∈ (' ' :: ((parenthesize right second).toList ++ rest)).head?,
      (char != ' ') = false := by simp
  obtain ⟨operator, following⟩ := cut_run (fun _ => ne_blank_of_mem_text op) outside
  have leftRead := leftReadable.operand _ (stops_cons ' ' (by decide)
    (op.text.toList ++ ' ' :: ((parenthesize right second).toList ++ rest)))
  simp [readWhole, leftRead, operator, following, operator_found isBinary known,
    rightReadable.operand rest stops]

theorem read_bracket {text : String} {found : Expr} {depth : Nat} {rest : List Char}
    (inside : readWhole (read depth) (text.toList ++ ')' :: rest) = some (found, ')' :: rest)) :
    read (depth + 1) (("(" ++ text ++ ")").toList ++ rest) = some (found, rest) := by
  have opened : ("(" ++ text ++ ")").toList ++ rest = '(' :: (text.toList ++ ')' :: rest) := by simp
  rw [opened]
  change (readWhole (read depth) _).map _ = _
  rw [inside]
  rfl

theorem Legible.exists_readable (legible : expr.Legible) : ∃ text, expr.text? = some text ∧
    ∀ depth, 2 * expr.parts.length ≤ depth → Readable expr text depth := by
  induction expr with
  | literal pos value =>
    refine ⟨_, rfl, fun depth enough => ?_⟩
    obtain ⟨depth, rfl⟩ := Nat.exists_eq_add_of_le' enough
    exact readable_literal pos value depth
  | var pos name =>
    refine ⟨_, rfl, fun depth enough => ?_⟩
    obtain ⟨depth, rfl⟩ := Nat.exists_eq_add_of_le' enough
    exact readable_var (IsVariable.isWord legible.named) (depth + 1)
  | nondet pos source =>
    refine ⟨_, rfl, fun depth enough => ?_⟩
    obtain ⟨depth, rfl⟩ := Nat.exists_eq_add_of_le' enough
    refine readable_nondet rfl ?_ (depth + 1)
    split
    · exact isWord_of_isIdentifier (by decide)
    · rename_i named
      exact isWord_of_isIdentifier (legible.named.resolve_left named)
  | unary pos op operand induction =>
    obtain ⟨isUnary, operandLegible⟩ := legible.unary
    obtain ⟨text, written, readable⟩ := induction operandLegible
    refine ⟨_, by rw [text?, written]; rfl, fun depth enough => ?_⟩
    simp only [parts, List.length_cons] at enough
    obtain ⟨depth, rfl⟩ := Nat.exists_eq_add_of_le' (by omega : 1 ≤ depth)
    exact readable_unary isUnary (readable depth (by omega))
  | binary pos op left right leftInduction rightInduction =>
    obtain ⟨isBinary, known, leftLegible, rightLegible⟩ := legible.binary
    obtain ⟨first, leftWritten, leftReadable⟩ := leftInduction leftLegible
    obtain ⟨second, rightWritten, rightReadable⟩ := rightInduction rightLegible
    refine ⟨_, by rw [text?, leftWritten, rightWritten]; rfl, fun depth enough => ?_⟩
    simp only [parts, List.length_cons, List.length_append] at enough
    obtain ⟨depth, rfl⟩ := Nat.exists_eq_add_of_le' (by omega : 1 ≤ depth)
    have whole : ∀ depth', depth ≤ depth' → ∀ rest, Stops rest → readWhole (read depth') _ = _ :=
      fun depth' more rest stops => readWhole_binary isBinary known (leftReadable depth' (by omega))
        (rightReadable depth' (by omega)) stops
    refine ⟨fun rest stops => ?_, fun rest stops _ => whole _ (by omega) rest stops⟩
    exact read_bracket (whole depth le_rfl _ (stops_cons ')' (by decide) rest))
  | foreign kind text | missing => cases legible.accepted

/-! ## Evaluation -/

variable {draw : Nat → Int64} {env : Env}

/-- The result of an operator before one operand; only two operators have one. -/
def unaryOutcome (pos : Nat) (op : Operator) (operand : Expr) (x : Int64) :
    Except EvalError Int64 :=
  match op with
  | .neg => .ok (-x)
  | .not => .ok (truthWord (x == 0))
  | _ => .error (.notEvaluable (unary pos op operand))

/-- The result of an operator after its second operand has been evaluated. -/
def binaryOutcome (op : Operator) (x y : Int64) : Except EvalError Int64 :=
  match op with
  | .and | .or => .ok (truthWord (y != 0))
  | op => op.apply x y

/-- The result of a logical operator that its first operand decides. -/
def decided? (op : Operator) (x : Int64) : Option Int64 :=
  match op with
  | .and => if x = 0 then some 0 else none
  | .or => if x ≠ 0 then some 1 else none
  | _ => none

/-- The result of an evaluation with the number of values drawn when it ends, also where it
fails. -/
def outcome (draw : Nat → Int64) (env : Env) : Expr → Nat → Except EvalError Int64 × Nat
  | literal _ value, next => (.ok value, next)
  | var _ name, next => (.ok (env.value name), next)
  | nondet _ _, next => (.ok (draw next), next + 1)
  | unary pos op operand, next =>
    match outcome draw env operand next with
    | (.error error, drawn) => (.error error, drawn)
    | (.ok x, drawn) => (unaryOutcome pos op operand x, drawn)
  | binary _ op left right, next =>
    match outcome draw env left next with
    | (.error error, drawn) => (.error error, drawn)
    | (.ok x, drawn) =>
      match decided? op x with
      | some value => (.ok value, drawn)
      | none =>
        match outcome draw env right drawn with
        | (.error error, drawn) => (.error error, drawn)
        | (.ok y, drawn) => (binaryOutcome op x y, drawn)
  | foreign kind text, next => (.error (.notEvaluable (foreign kind text)), next)
  | missing, next => (.error (.notEvaluable missing), next)

theorem eval_eq_outcome (expr : Expr) (next : Nat) : expr.eval draw env next =
    (expr.outcome draw env next).1.map (·, (expr.outcome draw env next).2) := by
  induction expr generalizing next with
  | literal | var | nondet | foreign | missing => rfl
  | unary pos op operand induction =>
    rw [eval, outcome, induction]
    rcases operand.outcome draw env next with ⟨error | x, drawn⟩
    · rfl
    · cases op <;> rfl
  | binary pos op left right leftInduction rightInduction =>
    rw [eval, outcome, leftInduction]
    rcases left.outcome draw env next with ⟨error | x, drawn⟩
    · rfl
    simp only [Except.map, bind, Except.bind, rightInduction]
    rcases right.outcome draw env drawn with ⟨error | y, after⟩
    · cases op <;> simp only [decided?] <;> split <;> rfl
    · cases op <;> simp only [decided?, binaryOutcome] <;> split <;> rfl

/-- Nothing that the reader misses matters. -/
theorem outcome_bare (legible : expr.Legible) (next : Nat) :
    expr.bare.outcome draw env next = expr.outcome draw env next := by
  induction expr generalizing next with
  | literal pos value =>
    have exact := Int64.ofInt_toInt value
    unfold bare
    cases found : value.toInt with
    | ofNat size =>
      rw [found] at exact
      rw [← exact]
      exact congrArg (fun word => (Except.ok word, next)) Int64.ofInt_eq_ofNat.symm
    | negSucc size =>
      rw [found, Int.negSucc_eq, Int64.ofInt_neg] at exact
      rw [← exact]
      exact congrArg (fun word => (Except.ok (-word), next)) Int64.ofInt_eq_ofNat.symm
  | var | nondet | foreign | missing => rfl
  | unary pos op operand induction =>
    obtain ⟨isUnary, operandLegible⟩ := legible.unary
    simp only [bare, outcome, induction operandLegible]
    cases op with
    | not | neg => rfl
    | _ => cases isUnary
  | binary pos op left right leftInduction rightInduction =>
    obtain ⟨-, -, leftLegible, rightLegible⟩ := legible.binary
    simp only [bare, outcome, leftInduction leftLegible, rightInduction rightLegible]

/-- Expressions with the same text have the same value or the same error in every environment, and
draw the same number of values.  How many these are where the evaluation fails is known from
`outcome`, which is otherwise what the evaluation gives. -/
theorem text_determines_evaluation {first second : Expr} (legible : first.Legible)
    (legible' : second.Legible) (same : first.text? = second.text?) (draw : Nat → Int64) (env : Env)
    (next : Nat) :
    first.eval draw env next = second.eval draw env next ∧
      first.outcome draw env next = second.outcome draw env next ∧
      first.eval draw env next =
        (first.outcome draw env next).1.map (·, (first.outcome draw env next).2) := by
  obtain ⟨text, written, readable⟩ := legible.exists_readable
  obtain ⟨text', written', readable'⟩ := legible'.exists_readable
  obtain rfl : text = text' := Option.some.inj (written.symm.trans (same.trans written'))
  have nothing : Stops [] := by simp [Stops]
  have read := (readable (2 * (first.parts.length + second.parts.length)) (by omega)).whole []
    nothing (by simp)
  rw [(readable' _ (by omega)).whole [] nothing (by simp)] at read
  have bare : second.bare = first.bare := congrArg Prod.fst (Option.some.inj read)
  have outcomes : first.outcome draw env next = second.outcome draw env next := by
    rw [← outcome_bare legible, ← bare, outcome_bare legible']
  refine ⟨?_, outcomes, eval_eq_outcome first next⟩
  rw [eval_eq_outcome, eval_eq_outcome, outcomes]

/-- A quotient of a numbered variable and an unnamed source, taken from a double minus and five. -/
def signedExample : Expr :=
  binary 0 (.arith .sub) (unary 0 .neg (literal 0 (-5)))
    (binary 0 (.arith .quo) (var 0 "x#1") (nondet 0 ""))

/-- The same text, where both minus signs are operators and the source has a name. -/
def negatedExample : Expr :=
  binary 8 (.arith .sub) (unary 1 .neg (unary 2 .neg (literal 3 5)))
    (binary 6 (.arith .quo) (var 4 "x#1") (nondet 7 "nondet"))

theorem isVariable_numbered : IsVariable "x#1".toList :=
  .inr ⟨['x'], ['1'], rfl, by decide, by simp, by simp⟩

/-- Both divide by zero after drawing one value. -/
theorem text_determines_evaluation_signed :
    signedExample.Legible ∧ negatedExample.Legible ∧ signedExample ≠ negatedExample ∧
      signedExample.text? = negatedExample.text? ∧
      signedExample.outcome (fun _ => 0) {} 0 = (.error .divisionByZero, 1) ∧
      negatedExample.outcome (fun _ => 0) {} 0 = (.error .divisionByZero, 1) := by
  have legible : signedExample.Legible := ⟨rfl, rfl, trivial, isVariable_numbered, .inl rfl⟩
  have legible' : negatedExample.Legible :=
    ⟨rfl, rfl, trivial, isVariable_numbered, .inr (by decide)⟩
  have same : signedExample.text? = negatedExample.text? := by cbv
  have fails : signedExample.outcome (fun _ => 0) {} 0 = (.error .divisionByZero, 1) := by cbv
  have agree := text_determines_evaluation legible legible' same (fun _ => 0) {} 0
  exact ⟨legible, legible', by decide, same, fails, agree.2.1.symm.trans fails⟩

end Expr

end Reachability
