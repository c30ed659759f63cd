import KeyValueServer.JsonText

/-!
# The search tree of the router

Crow keeps the rules of a method in a tree of nodes.  A node stands for a piece of the URLs of the rules, a text (`key`)
or a parameter (`param`), and has the index of the rule that ends there, or 0.  `add` puts a rule in character by
character; `optimize` then joins every node that only leads to another one with its child; `find` looks for a URL and
takes the rule with the least index among those that match.

Blueprints are left out.
-/

namespace KeyValueServer

namespace Crow

/-! ### Parameters -/

inductive ParamType
  | int
  | uint
  | double
  | string
  | path
  deriving DecidableEq

/-- `routing_params`: the values that a URL has for the parameters of a rule, a `double` as its 64 bits. -/
structure RoutingParams where
  intParams : List Int := []
  uintParams : List Nat := []
  doubleParams : List (BitVec 64) := []
  stringParams : List Bytes := []
  deriving DecidableEq

def digitsValue (digits : Bytes) : Nat := digits.foldl (fun n c => 10 * n + (c.toNat - 48)) 0

/-- `strtoll` at base 10, for a text that begins with a digit or a sign: the value and what follows it, unless there is
no digit or the value is out of range. -/
def strtoll (text : Bytes) : Option (Int × Bytes) :=
  let negative := text.head? = some 45
  let unsigned := if negative ∨ text.head? = some 43 then text.tail else text
  let digits := unsigned.takeWhile JsonText.isDigit
  let value : Int := if negative then -digitsValue digits else digitsValue digits
  if digits = [] ∨ value < -2 ^ 63 ∨ 2 ^ 63 ≤ value then none else some (value, unsigned.dropWhile JsonText.isDigit)

/-- `strtoull`, for a text that begins with a digit or `+`. -/
def strtoull (text : Bytes) : Option (Nat × Bytes) :=
  let unsigned := if text.head? = some 43 then text.tail else text
  let digits := unsigned.takeWhile JsonText.isDigit
  if digits = [] ∨ 2 ^ 64 ≤ digitsValue digits then none
  else some (digitsValue digits, unsigned.dropWhile JsonText.isDigit)

/-- `strtod`, which is up to the standard library and its locale: the value and the number of characters read, 0 where
no number begins, unless the value is out of range. -/
class Strtod where
  strtod (text : Bytes) : Option (BitVec 64 × Nat)

/-- No text begins with a number. -/
@[reducible] def Strtod.none : Strtod where
  strtod _ := some (0, 0)

/-- The parameters so far and the URL from `pos` on. -/
abbrev Cursor := RoutingParams × Bytes

def isSlash (c : UInt8) : Bool := c = 47

section Find

variable [Strtod]

/-- `find` at a parameter. -/
def ParamType.read : ParamType → Cursor → Option Cursor
  | _, (_, []) => none
  | .int, (params, c :: rest) =>
    if JsonText.isDigit c ∨ c = 43 ∨ c = 45 then
      (strtoll (c :: rest)).map fun (value, rest) =>
        ({ params with intParams := params.intParams ++ [value] }, rest)
    else none
  | .uint, (params, c :: rest) =>
    if JsonText.isDigit c ∨ c = 43 then
      (strtoull (c :: rest)).map fun (value, rest) =>
        ({ params with uintParams := params.uintParams ++ [value] }, rest)
    else none
  | .double, (params, c :: rest) =>
    if JsonText.isDigit c ∨ c = 43 ∨ c = 45 ∨ c = 46 then
      match Strtod.strtod (c :: rest) with
      | some (value, count) =>
        if count = 0 then none
        else some ({ params with doubleParams := params.doubleParams ++ [value] }, (c :: rest).drop count)
      | none => none
    else none
  | .string, (params, c :: rest) =>
    if isSlash c then none
    else
      some ({ params with stringParams := params.stringParams ++ [(c :: rest).takeWhile (!isSlash ·)] },
        (c :: rest).dropWhile (!isSlash ·))
  | .path, (params, c :: rest) =>
    some ({ params with stringParams := params.stringParams ++ [c :: rest] }, [])

/-! ### Nodes -/

structure Node where
  ruleIndex : Nat
  key : Bytes
  param : Option ParamType
  children : List Node

/-- A node as `new_node` makes it. -/
def Node.leaf (key : Bytes) (param : Option ParamType) : Node := ⟨0, key, param, []⟩

def Node.isSimpleNode (node : Node) : Bool :=
  node.ruleIndex = 0 && node.children.length < 2 && node.param = none && node.children.all (·.param = none)

/-- What `find` reads before it goes on at a child. -/
def Node.enter (node : Node) : Cursor → Option Cursor
  | (params, rest) =>
    match node.param with
    | some param => param.read (params, rest)
    | none => if node.key.isPrefixOf rest then some (params, rest.drop node.key.length) else none

/-- The index of the rule that is found, 0 if there is none, and its parameters. -/
abbrev Found := Nat × RoutingParams

/-- `update_found`. -/
def Found.update (found ret : Found) : Found :=
  if ret.1 ≠ 0 ∧ (found.1 = 0 ∨ ret.1 < found.1) then ret else found

mutual

def Node.find : Node → Cursor → Found
  | ⟨ruleIndex, _, _, children⟩, cursor =>
    if cursor.2 = [] then (ruleIndex, cursor.1) else findChildren children cursor (0, {})

def findChildren : List Node → Cursor → Found → Found
  | [], _, found => found
  | child :: children, cursor, found =>
    match child.enter cursor with
    | none => findChildren children cursor found
    | some cursor' => findChildren children cursor (Found.update found (child.find cursor'))

end

end Find

mutual

/-- `optimizeNode` of a node whose key has become `key`.  The node that takes the place of a simple node and its child
is the child with a longer key. -/
def Node.optimizeAs (key : Bytes) : Node → Node
  | ⟨ruleIndex, _, param, []⟩ => ⟨ruleIndex, key, param, []⟩
  | ⟨ruleIndex, _, param, child :: children⟩ =>
    if ruleIndex = 0 ∧ children = [] ∧ param = none ∧ child.param = none then child.optimizeAs (key ++ child.key)
    else ⟨ruleIndex, key, param, child.optimizeAs child.key :: optimizeChildren children⟩

def optimizeChildren : List Node → List Node
  | [] => []
  | child :: children => child.optimizeAs child.key :: optimizeChildren children

end

def Node.optimizeNode (node : Node) : Node := node.optimizeAs node.key

/-! ### Rules as patterns -/

/-- One turn of the loop of `add`. -/
inductive Piece
  | char (c : UInt8)
  | param (type : ParamType)
  deriving DecidableEq

abbrev Pattern := List Piece

def paramTraits : List (ParamType × Bytes) :=
  [(.int, ascii "<int>"), (.uint, ascii "<uint>"), (.double, ascii "<float>"), (.double, ascii "<double>"),
    (.string, ascii "<str>"), (.string, ascii "<string>"), (.path, ascii "<path>")]

/-- The turns of the loop of `add`, when `skip` characters belong to the parameter before; at a `<` with which no
parameter begins, the loop does not go on. -/
def pieces (skip : Nat) : Bytes → Option Pattern
  | [] => some []
  | c :: rest =>
    match skip with
    | skip + 1 => pieces skip rest
    | 0 =>
      if c = 60 then
        match paramTraits.find? fun x => x.2.isPrefixOf (c :: rest) with
        | some (type, name) => (pieces (name.length - 1) rest).map (.param type :: ·)
        | none => none
      else (pieces 0 rest).map (.char c :: ·)

/-- The test of `add` whether to go on at a child; `key[0]` of an empty key is the terminating NUL. -/
def Piece.fits (piece : Piece) (child : Node) : Bool :=
  match piece with
  | .char c => child.key.headD 0 = c
  | .param type => child.param = some type

def Piece.newNode : Piece → Node
  | .char c => .leaf [c] none
  | .param type => .leaf [] (some type)

/-- What `add` does below the first child that fits, or below a new one at the end. -/
def addBelow (piece : Piece) (add : Node → Option Node) : List Node → Option (List Node)
  | [] => (add piece.newNode).map ([·])
  | child :: children =>
    if piece.fits child then (add child).map (· :: children) else (addBelow piece add children).map (child :: ·)

/-- The rest of the loop of `add` at a node.  When there is a rule already, it throws. -/
def Node.add (ruleIndex : Nat) : Pattern → Node → Option Node
  | [], node => if node.ruleIndex ≠ 0 then none else some { node with ruleIndex }
  | piece :: pattern, node =>
    (addBelow piece (Node.add ruleIndex pattern) node.children).map fun children => { node with children }

structure Trie where
  head : Node

namespace Trie

def empty : Trie := ⟨.leaf [] none⟩

def isEmpty (trie : Trie) : Bool := trie.head.children.isEmpty

def add (trie : Trie) (url : Bytes) (ruleIndex : Nat) : Option Trie := do
  let pattern ← pieces 0 url
  let head ← trie.head.add ruleIndex pattern
  return ⟨head⟩

def find [Strtod] (trie : Trie) (url : Bytes) : Found := trie.head.find ({}, url)

def optimize (trie : Trie) : Trie := ⟨{ trie.head with children := trie.head.children.map Node.optimizeNode }⟩

/-- `validate` throws when the head is not simple. -/
def validate (trie : Trie) : Option Trie := if trie.head.isSimpleNode then some trie.optimize else none

end Trie

/-! ### Induction over the nodes -/

theorem Node.induct {motive : Node → Prop}
    (node : ∀ ruleIndex key param children, (∀ child ∈ children, motive child) →
      motive ⟨ruleIndex, key, param, children⟩) (n : Node) : motive n :=
  @Node.rec motive (fun children => ∀ child ∈ children, motive child) node (List.forall_mem_nil _)
    (fun _ _ hchild hchildren => List.forall_mem_cons.2 ⟨hchild, hchildren⟩) n

theorem optimizeChildren_eq (children : List Node) : optimizeChildren children = children.map Node.optimizeNode := by
  induction children with
  | nil => rfl
  | cons child children ih =>
    rw [optimizeChildren, ih]
    rfl

/-- `optimizeNode` as the source has it. -/
theorem Node.optimizeNode_eq (node : Node) :
    node.optimizeNode =
      match node.children with
      | [] => node
      | child :: _ =>
        if node.isSimpleNode then
          optimizeNode ⟨child.ruleIndex, node.key ++ child.key, node.param, child.children⟩
        else { node with children := node.children.map optimizeNode } := by
  obtain ⟨ruleIndex, key, param, children⟩ := node
  cases children with
  | nil => rfl
  | cons child children =>
    unfold optimizeNode
    rw [optimizeAs]
    dsimp only
    by_cases h : ruleIndex = 0 ∧ children = [] ∧ param = none ∧ child.param = none
    · obtain ⟨rfl, rfl, rfl, hparam⟩ := h
      have hsimple : Node.isSimpleNode ⟨0, key, none, [child]⟩ = true := by simp [isSimpleNode, hparam]
      rw [if_pos ⟨rfl, rfl, rfl, hparam⟩, if_pos hsimple]
      obtain ⟨i, k, p, cs⟩ := child
      obtain rfl : p = none := hparam
      cases cs <;> rfl
    · have hsimple : ¬ Node.isSimpleNode ⟨ruleIndex, key, param, child :: children⟩ = true := by
        rintro hs
        simp only [isSimpleNode, Bool.and_eq_true, decide_eq_true_eq, List.all_cons, List.length_cons] at hs
        obtain ⟨⟨⟨hi, hlen⟩, hp⟩, hc, -⟩ := hs
        exact h ⟨hi, List.length_eq_zero_iff.1 (by omega), hp, hc⟩
      rw [if_neg h, if_neg hsimple, optimizeChildren_eq]
      rfl

end Crow

end KeyValueServer
