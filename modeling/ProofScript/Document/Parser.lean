import ProofScript.Document
import ProofScript.ScriptError

/-!
# Reading documents

A recursive descent over the token stream of a script. The first error ends the reading; a lexical
error shows itself when its place is looked at. Every function takes a bound on the depth of its
calls: a cycle of calls takes a token, so a multiple of the number of tokens is always enough.
-/

namespace ProofScript

/-- A reader of some part of a token stream. -/
abbrev Parser := StateT TokenStream (Except ScriptError)

namespace Parser

/-- Looks at the token `n` places ahead. -/
def peek (n : Nat) : Parser Token := fun s =>
  match s.peek n with
  | .ok t => .ok (t, s)
  | .error e => .error (.lex e)

/-- Takes the next token. -/
def next : Parser Token := fun s =>
  match s.peek 0 with
  | .ok t => .ok (t, s.next)
  | .error e => .error (.lex e)

/-- Fails at a token. -/
def fail {α : Type} (tok : Token) (cause : ParseCause) : Parser α := fun _ =>
  .error (.parse ⟨tok.loc, tok.kind, cause⟩)

/-- Takes the next token, which must be of one of these classes. -/
def expect (kinds : List TokenKind) : Parser Token := do
  let tok ← next
  if tok.kind ∈ kinds then return tok
  else fail tok (.expected kinds)

/-- Takes the next token if it is of this class, and tells whether it was. -/
def accept (kind : TokenKind) : Parser Bool := do
  let tok ← peek 0
  if tok.kind = kind then
    let _ ← next
    return true
  else return false

/-- Fails at a token that opens a System F form in propositional mode. -/
def require (systemF : Bool) (tok : Token) (form : Extension) : Parser Unit :=
  if systemF then return () else fail tok (.needsSystemF form)

/-- Gives up where the bound on the depth is used up. -/
def tooDeep {α : Type} : Parser α := do
  let tok ← peek 0
  fail tok .tooDeep

/-- Type variables separated by commas. -/
def typeVars : Nat → Parser (List String)
  | 0 => tooDeep
  | n + 1 => do
    let tok ← expect [.typeVar]
    if ← accept .comma then
      let rest ← typeVars n
      return tok.value :: rest
    else return [tok.value]

mutual

/-- A proposition: quantified, or an implication. -/
def formula (systemF : Bool) : Nat → Parser Formula
  | 0 => tooDeep
  | n + 1 => do
    let tok ← peek 0
    if tok.kind = .forallKeyword then
      require systemF tok .quantifiedProposition
      let _ ← next
      let vars ← typeVars n
      let _ ← expect [.dot]
      let body ← implication systemF n
      return .all vars body tok.loc
    else implication systemF n

/-- Disjunctions joined by arrows, grouped to the right. -/
def implication (systemF : Bool) : Nat → Parser Formula
  | 0 => tooDeep
  | n + 1 => do
    let left ← disjunction systemF n
    if ← accept .implies then
      let right ← implication systemF n
      return .impl left right left.loc
    else return left

/-- Conjunctions joined by bars, grouped to the left. -/
def disjunction (systemF : Bool) : Nat → Parser Formula
  | 0 => tooDeep
  | n + 1 => do
    let left ← conjunction systemF n
    disjunctionRest systemF n left

/-- The rest of a disjunction whose left part is read. -/
def disjunctionRest (systemF : Bool) : Nat → Formula → Parser Formula
  | 0, _ => tooDeep
  | n + 1, left => do
    if ← accept .or then
      let right ← conjunction systemF n
      disjunctionRest systemF n (.disj left right left.loc)
    else return left

/-- Negations joined by ampersands, grouped to the left. -/
def conjunction (systemF : Bool) : Nat → Parser Formula
  | 0 => tooDeep
  | n + 1 => do
    let left ← negation systemF n
    conjunctionRest systemF n left

/-- The rest of a conjunction whose left part is read. -/
def conjunctionRest (systemF : Bool) : Nat → Formula → Parser Formula
  | 0, _ => tooDeep
  | n + 1, left => do
    if ← accept .and then
      let right ← negation systemF n
      conjunctionRest systemF n (.conj left right left.loc)
    else return left

/-- An atom under any number of negation signs. -/
def negation (systemF : Bool) : Nat → Parser Formula
  | 0 => tooDeep
  | n + 1 => do
    let tok ← peek 0
    if tok.kind = .not then
      let _ ← next
      let body ← negation systemF n
      return .neg body tok.loc
    else atom systemF n

/-- A type variable with its predicate arguments, or a proposition in parentheses. -/
def atom (systemF : Bool) : Nat → Parser Formula
  | 0 => tooDeep
  | n + 1 => do
    let tok ← expect [.typeVar, .lparen]
    if tok.kind = .lparen then
      let f ← formula systemF n
      let _ ← expect [.rparen]
      return f
    else
      let bracket ← peek 0
      if bracket.kind = .lbracket then
        require systemF bracket .predicateApplication
        let _ ← next
        let args ← typeVars n
        let _ ← expect [.rbracket]
        return .atom tok.value args tok.loc
      else return .atom tok.value [] tok.loc

end

/-- An optional name with its colon. -/
def label : Parser (Option String) := do
  let tok ← peek 0
  if tok.kind = .identifier then
    let colon ← peek 1
    if colon.kind = .colon then
      let _ ← next
      let _ ← next
      return some tok.value
    else return none
  else return none

/-- A proposition with an optional name. -/
def claim (systemF : Bool) (n : Nat) : Parser Claim := do
  let start ← peek 0
  let name ← label
  let f ← formula systemF n
  return ⟨name, f, start.loc⟩

/-- A claim whose proposition may be the hole. -/
def claimOrHole (systemF : Bool) (n : Nat) : Parser Claim := do
  let start ← peek 0
  let name ← label
  let tok ← peek 0
  if tok.kind = .identifier ∧ tok.value = "_" then
    let _ ← next
    return ⟨name, .hole, start.loc⟩
  else
    let f ← formula systemF n
    return ⟨name, f, start.loc⟩

/-- Claims separated by commas. -/
def claims (systemF : Bool) : Nat → Parser (List Claim)
  | 0 => tooDeep
  | n + 1 => do
    let c ← claim systemF n
    if ← accept .comma then
      let rest ← claims systemF n
      return c :: rest
    else return [c]

/-- Does the quantifier ahead open a quantified proposition, not a block? Its variables start at
place `i`. What fits neither is left to the reader of propositions. -/
def quantifierAhead : Nat → Nat → Parser Bool
  | 0, _ => tooDeep
  | n + 1, i => do
    let tok ← peek i
    if tok.kind ≠ .typeVar then return true
    else
      let sep ← peek (i + 1)
      if sep.kind = .comma then quantifierAhead n (i + 2)
      else return sep.kind ≠ .lbrace

/-- Can a token of this class start an argument? -/
def startsArgument (systemF : Bool) (n : Nat) (kind : TokenKind) : Parser Bool :=
  match kind with
  | .identifier => return true
  | .typeVar => return true
  | .lparen => return true
  | .not => return true
  | .forallKeyword => if systemF then quantifierAhead n 1 else return false
  | _ => return false

/-- An argument: a name or a proposition. -/
def argument (systemF : Bool) (n : Nat) : Parser Argument := do
  let tok ← peek 0
  if tok.kind = .identifier then
    let _ ← next
    return .fact tok.value tok.loc
  else
    let f ← formula systemF n
    return .prop f

/-- Arguments separated by commas. -/
def arguments (systemF : Bool) : Nat → Parser (List Argument)
  | 0 => tooDeep
  | n + 1 => do
    let a ← argument systemF n
    if ← accept .comma then
      let rest ← arguments systemF n
      return a :: rest
    else return [a]

/-- A rule with its arguments, if any follow. -/
def application (systemF : Bool) (n : Nat) : Parser Justification := do
  let tok ← expect [.identifier]
  let ahead ← peek 0
  if ← startsArgument systemF n ahead.kind then
    let args ← arguments systemF n
    return .apply tok.value args tok.loc
  else return .apply tok.value [] tok.loc

/-- The classes that start a statement. -/
def statementKinds (systemF : Bool) : List TokenKind :=
  [.assumeKeyword, .haveKeyword, .byKeyword] ++ if systemF then [.forallKeyword] else []

/-- The classes that start a justification. -/
def justificationKinds (systemF : Bool) : List TokenKind :=
  [.identifier, .assumeKeyword] ++ if systemF then [.forallKeyword] else []

mutual

/-- The steps of a proof up to one of the closing classes, which is not taken. -/
def proof (systemF : Bool) (closing : List TokenKind) : Nat → Parser Proof
  | 0 => tooDeep
  | n + 1 => do
    let start ← peek 0
    match ← steps systemF closing n with
    | some s => return .mk s start.loc
    | none => fail start .emptyProof

/-- Statements up to a closing class; none where it comes at once. -/
def steps (systemF : Bool) (closing : List TokenKind) : Nat → Parser (Option Steps)
  | 0 => tooDeep
  | n + 1 => do
    let tok ← peek 0
    if tok.kind ∈ closing then return none
    else if tok.kind = .byKeyword then
      let _ ← next
      let j ← justification systemF n
      let _ ← accept .semi
      let stop ← peek 0
      if stop.kind ∈ closing then return some (.conclude j tok.loc)
      else fail stop (.expected closing)
    else
      let s ← statement systemF closing n
      let _ ← accept .semi
      match ← steps systemF closing n with
      | some rest => return some (.more s rest)
      | none => return some (.last s)

/-- A step or a block. -/
def statement (systemF : Bool) (closing : List TokenKind) : Nat → Parser Statement
  | 0 => tooDeep
  | n + 1 => do
    let tok ← peek 0
    match tok.kind with
    | .assumeKeyword => return .block (← assumption systemF n)
    | .haveKeyword => step systemF n
    | .forallKeyword =>
      require systemF tok .generalization
      return .block (← generalization systemF n)
    | _ => fail tok (.expected (statementKinds systemF ++ closing))

/-- A claim with its justification. -/
def step (systemF : Bool) : Nat → Parser Statement
  | 0 => tooDeep
  | n + 1 => do
    let tok ← expect [.haveKeyword]
    let c ← claimOrHole systemF n
    let _ ← expect [.byKeyword]
    let j ← justification systemF n
    return .step c j tok.loc

/-- A rule with its arguments, or a block. -/
def justification (systemF : Bool) : Nat → Parser Justification
  | 0 => tooDeep
  | n + 1 => do
    let tok ← peek 0
    match tok.kind with
    | .identifier => application systemF n
    | .assumeKeyword => return .block (← assumption systemF n)
    | .forallKeyword =>
      require systemF tok .generalization
      return .block (← generalization systemF n)
    | _ => fail tok (.expected (justificationKinds systemF))

/-- Hypotheses and their subproof. -/
def assumption (systemF : Bool) : Nat → Parser Block
  | 0 => tooDeep
  | n + 1 => do
    let tok ← expect [.assumeKeyword]
    let hyps ← claims systemF n
    let p ← braced systemF n
    return .assume hyps p tok.loc

/-- Bound variables and their subproof. -/
def generalization (systemF : Bool) : Nat → Parser Block
  | 0 => tooDeep
  | n + 1 => do
    let tok ← expect [.forallKeyword]
    let vars ← typeVars n
    let p ← braced systemF n
    return .generalize vars p tok.loc

/-- A proof in braces. -/
def braced (systemF : Bool) : Nat → Parser Proof
  | 0 => tooDeep
  | n + 1 => do
    let _ ← expect [.lbrace]
    let p ← proof systemF [.rbrace] n
    let _ ← expect [.rbrace]
    return p

end

/-- Theorems, as long as the next token starts one. -/
def theorems (systemF : Bool) : Nat → Parser (List Theorem)
  | 0 => tooDeep
  | n + 1 => do
    let tok ← peek 0
    if tok.kind = .theoremKeyword then
      let _ ← next
      let c ← claim systemF n
      let p ← proof systemF [.theoremKeyword, .eof] n
      let rest ← theorems systemF n
      return ⟨c, p, tok.loc⟩ :: rest
    else return []

/-- A whole script: at least one theorem, and nothing after the last. -/
def document (systemF : Bool) (n : Nat) : Parser Document := do
  let first ← peek 0
  let thms ← theorems systemF n
  if thms.isEmpty then
    let _ ← expect [.theoremKeyword]
    return ⟨[], first.loc⟩
  else
    let _ ← expect [.theoremKeyword, .eof]
    return ⟨thms, first.loc⟩

end Parser

/-- A depth that no script with this many tokens reaches. -/
def parseDepth (tokens : Nat) : Nat := 16 * (tokens + 2)

/-- Reads a document from the stream of a script. -/
def TokenStream.parse (s : TokenStream) (systemF : Bool) : Except ScriptError Document :=
  (Parser.document systemF (parseDepth s.tokens.length)).run' s

/-- Reads a whole script. -/
def parse (src : List UInt8) (systemF : Bool) : Except ScriptError Document :=
  (TokenStream.ofSource src).parse systemF

end ProofScript
