import KeyValueServer.Crow.Trie
import Mathlib.Data.List.Nodup
import Mathlib.Data.List.Perm.Basic

/-!
# The rules of a search tree

What a tree holds is the table of its rules, a list of patterns with their indices (`Node.rules`).  `add` adds one, and
throws when the pattern is there already (`Node.add_spec`); `optimize` leaves the table as it is
(`Trie.rules_optimize`); and `find` depends on the table alone, of which it takes a matching rule with the least index
(`Trie.find_least`).
-/

namespace KeyValueServer

namespace Crow

/-! ### The table of a tree -/

/-- What a node with this key and parameter stands for. -/
def labelOf (key : Bytes) : Option ParamType → Pattern
  | some type => [.param type]
  | none => key.map .char

def Node.label (node : Node) : Pattern := labelOf node.key node.param

/-- A table of rules: the pattern and the index of each. -/
abbrev Table := List (Pattern × Nat)

def Table.under (label : Pattern) (table : Table) : Table := table.map fun rule => (label ++ rule.1, rule.2)

mutual

def Node.rules : Node → Table
  | ⟨ruleIndex, _, _, children⟩ => (if ruleIndex = 0 then [] else [([], ruleIndex)]) ++ rulesBelow children

def rulesBelow : List Node → Table
  | [] => []
  | child :: children => Table.under child.label child.rules ++ rulesBelow children

end

/-- The patterns of the children are not empty. -/
inductive Node.Proper : Node → Prop
  | node {ruleIndex : Nat} {key : Bytes} {param : Option ParamType} {children : List Node} :
      (∀ child ∈ children, child.label ≠ []) → (∀ child ∈ children, child.Proper) →
      Proper ⟨ruleIndex, key, param, children⟩

mutual

theorem Node.rules_ne_zero : ∀ (node : Node), ∀ rule ∈ node.rules, rule.2 ≠ 0
  | ⟨ruleIndex, _, _, children⟩, rule, h => by
    rw [Node.rules, List.mem_append] at h
    rcases h with h | h
    · split at h
      · cases h
      · obtain rfl := List.mem_singleton.1 h
        assumption
    · exact rulesBelow_ne_zero children rule h

theorem rulesBelow_ne_zero : ∀ (children : List Node), ∀ rule ∈ rulesBelow children, rule.2 ≠ 0
  | [], _, h => by cases h
  | child :: children, rule, h => by
    rw [rulesBelow, List.mem_append, Table.under, List.mem_map] at h
    rcases h with ⟨rule, hrule, rfl⟩ | h
    · exact Node.rules_ne_zero child rule hrule
    · exact rulesBelow_ne_zero children rule h

end

theorem Table.under_under (p q : Pattern) (t : Table) :
    Table.under p (Table.under q t) = Table.under (p ++ q) t := by
  simp [under, Function.comp_def]

theorem rulesBelow_cons (child : Node) (children : List Node) :
    rulesBelow (child :: children) = Table.under child.label child.rules ++ rulesBelow children := by
  rw [rulesBelow]

theorem rulesBelow_append (children children' : List Node) :
    rulesBelow (children ++ children') = rulesBelow children ++ rulesBelow children' := by
  induction children with
  | nil => rfl
  | cons child children ih => rw [List.cons_append, rulesBelow_cons, ih, rulesBelow_cons, List.append_assoc]

/-! ### The better one of two results -/

theorem Found.update_update (f g h : Found) :
    Found.update f (Found.update g h) = Found.update (Found.update f g) h := by
  unfold update
  grind

theorem Found.update_foldl (f : Found) (l : List Found) (g : Found) :
    Found.update f (l.foldl Found.update g) = l.foldl Found.update (Found.update f g) := by
  induction l generalizing g with
  | nil => rfl
  | cons h l ih =>
    rw [List.foldl_cons, List.foldl_cons, ih, Found.update_update]

@[simp] theorem Found.update_zero (f : Found) (params : RoutingParams) : Found.update f (0, params) = f := by
  simp [update]

/-- One result is preferred to another one, or they are as good as each other. -/
def Found.Beats (f g : Found) : Prop := g.1 ≠ 0 → f.1 ≠ 0 ∧ f.1 ≤ g.1

theorem Found.Beats.trans {f g h : Found} (hfg : f.Beats g) (hgh : g.Beats h) : f.Beats h := by
  intro hh
  obtain ⟨hg, hle⟩ := hgh hh
  obtain ⟨hf, hle'⟩ := hfg hg
  exact ⟨hf, Nat.le_trans hle' hle⟩

theorem Found.update_beats (f g : Found) : (f.update g).Beats f ∧ (f.update g).Beats g := by
  unfold update Beats
  split <;> omega

theorem Found.foldl_beats (l : List Found) (f : Found) :
    (l.foldl Found.update f).Beats f ∧ ∀ g ∈ l, (l.foldl Found.update f).Beats g := by
  induction l generalizing f with
  | nil => exact ⟨fun h => ⟨h, Nat.le_refl _⟩, List.forall_mem_nil _⟩
  | cons g l ih =>
    obtain ⟨hf, hg⟩ := f.update_beats g
    obtain ⟨hupdate, hall⟩ := ih (f.update g)
    exact ⟨hupdate.trans hf, List.forall_mem_cons.2 ⟨hupdate.trans hg, hall⟩⟩

theorem Found.foldl_mem (l : List Found) (f : Found) : l.foldl Found.update f = f ∨ l.foldl Found.update f ∈ l := by
  induction l generalizing f with
  | nil => exact Or.inl rfl
  | cons g l ih =>
    rw [List.foldl_cons, List.mem_cons]
    rcases ih (f.update g) with h | h
    · rw [h]
      unfold update
      split
      · exact Or.inr (Or.inl rfl)
      · exact Or.inl rfl
    · exact Or.inr (Or.inr h)

section Find

variable [Strtod]

/-! ### Reading a URL -/

def Piece.read : Piece → Cursor → Option Cursor
  | .char _, (_, []) => none
  | .char c, (params, c' :: rest) => if c = c' then some (params, rest) else none
  | .param type, cursor => type.read cursor

def readAll (pattern : Pattern) (cursor : Cursor) : Option Cursor :=
  pattern.foldlM (fun cursor piece => piece.read cursor) cursor

/-- The parameters of a URL that matches the pattern to its end. -/
def matched (pattern : Pattern) (cursor : Cursor) : Option RoutingParams :=
  match readAll pattern cursor with
  | some (params, []) => some params
  | _ => none

/-- What the rules that match have to offer. -/
def Table.candidates (table : Table) (cursor : Cursor) : List Found :=
  table.filterMap fun rule => (matched rule.1 cursor).map (rule.2, ·)

/-- The least index of the rules that match, and the parameters of such a rule. -/
structure Table.Least (table : Table) (url : Bytes) (found : Found) : Prop where
  unmatched : found.1 = 0 ↔ ∀ rule ∈ table, matched rule.1 ({}, url) = none
  rule : found.1 ≠ 0 → ∃ rule ∈ table, rule.2 = found.1 ∧ matched rule.1 ({}, url) = some found.2
  le : ∀ rule ∈ table, matched rule.1 ({}, url) ≠ none → found.1 ≤ rule.2

theorem readAll_append (p q : Pattern) (cursor : Cursor) :
    readAll (p ++ q) cursor = (readAll p cursor).bind (readAll q) := List.foldlM_append

theorem readAll_cons (piece : Piece) (p : Pattern) (cursor : Cursor) :
    readAll (piece :: p) cursor = (piece.read cursor).bind (readAll p) := List.foldlM_cons

theorem Piece.read_end (piece : Piece) (params : RoutingParams) : piece.read (params, []) = none := by
  cases piece with
  | char c => rfl
  | param type => cases type <;> rfl

theorem matched_append (p q : Pattern) (cursor : Cursor) :
    matched (p ++ q) cursor = (readAll p cursor).bind (matched q) := by
  unfold matched
  rw [readAll_append]
  cases readAll p cursor <;> rfl

theorem readAll_chars (key : Bytes) (params : RoutingParams) (rest : Bytes) :
    readAll (key.map .char) (params, rest) =
      if key.isPrefixOf rest then some (params, rest.drop key.length) else none := by
  induction key generalizing rest with
  | nil => simp [readAll]
  | cons c key ih =>
    rw [List.map_cons, readAll_cons]
    cases rest with
    | nil => simp [Piece.read]
    | cons c' rest =>
      by_cases hc : c = c'
      · subst hc
        simp [Piece.read, ih]
      · simp [Piece.read, hc]

theorem Node.enter_eq (node : Node) (cursor : Cursor) : node.enter cursor = readAll node.label cursor := by
  obtain ⟨params, rest⟩ := cursor
  unfold enter label
  cases node.param with
  | some type =>
    rw [labelOf, readAll_cons]
    exact (Option.bind_fun_some _).symm
  | none => exact (readAll_chars _ _ _).symm

theorem Table.candidates_append (t t' : Table) (cursor : Cursor) :
    Table.candidates (t ++ t') cursor = Table.candidates t cursor ++ Table.candidates t' cursor :=
  List.filterMap_append

/-- The rules below a label match what the label leaves over. -/
theorem Table.candidates_under (label : Pattern) (t : Table) (cursor : Cursor) :
    Table.candidates (Table.under label t) cursor =
      match readAll label cursor with
      | none => []
      | some cursor' => Table.candidates t cursor' := by
  unfold candidates under
  rw [List.filterMap_map]
  simp only [Function.comp_def, matched_append]
  cases readAll label cursor with
  | none => simp
  | some cursor' => rfl

/-! ### `find` depends on the rules alone -/

theorem candidates_rulesBelow_end {children : List Node} (h : ∀ child ∈ children, child.label ≠ [])
    (params : RoutingParams) : Table.candidates (rulesBelow children) (params, []) = [] := by
  induction children with
  | nil => rfl
  | cons child children ih =>
    have hchild := h child List.mem_cons_self
    rw [rulesBelow, Table.candidates_append, ih fun c hc => h c (List.mem_cons_of_mem _ hc), List.append_nil,
      Table.candidates_under]
    cases hlabel : child.label with
    | nil => exact absurd hlabel hchild
    | cons piece label => rw [readAll_cons, piece.read_end, Option.bind_none]

theorem findChildren_eq {children : List Node} {cursor : Cursor}
    (h : ∀ child ∈ children, ∀ cursor found,
      Found.update found (child.find cursor) = (Table.candidates child.rules cursor).foldl Found.update found)
    (found : Found) :
    findChildren children cursor found = (Table.candidates (rulesBelow children) cursor).foldl Found.update found := by
  induction children generalizing found with
  | nil => rfl
  | cons child children ih =>
    have hchildren := ih fun c hc => h c (List.mem_cons_of_mem _ hc)
    rw [findChildren, rulesBelow, Table.candidates_append, List.foldl_append, Table.candidates_under, child.enter_eq]
    cases readAll child.label cursor with
    | none => exact hchildren found
    | some cursor' =>
      dsimp only
      rw [hchildren, h child List.mem_cons_self]

theorem Node.find_eq (node : Node) (h : node.Proper) (cursor : Cursor) (found : Found) :
    Found.update found (node.find cursor) = (Table.candidates node.rules cursor).foldl Found.update found := by
  induction node using Node.induct generalizing cursor found with
  | node ruleIndex key param children ih =>
    obtain ⟨hlabels, hchildren⟩ := h
    obtain ⟨params, rest⟩ := cursor
    rw [find, rules, Table.candidates_append, List.foldl_append]
    dsimp only
    by_cases hrest : rest = []
    · subst hrest
      rw [if_pos rfl, candidates_rulesBelow_end hlabels]
      by_cases hi : ruleIndex = 0
      · subst hi
        simp [Table.candidates]
      · simp [hi, Table.candidates, matched, readAll]
    · have hown : Table.candidates (if ruleIndex = 0 then [] else [([], ruleIndex)]) (params, rest) = [] := by
        by_cases hi : ruleIndex = 0
        · simp [hi, Table.candidates]
        · cases rest with
          | nil => exact absurd rfl hrest
          | cons c rest => simp [hi, Table.candidates, matched, readAll]
      rw [if_neg hrest, hown, List.foldl_nil, findChildren_eq fun child hc => ih child hc (hchildren child hc),
        Found.update_foldl, Found.update_zero]

theorem Table.mem_candidates {table : Table} {cursor : Cursor} {found : Found} :
    found ∈ table.candidates cursor ↔ ∃ rule ∈ table, rule.2 = found.1 ∧ matched rule.1 cursor = some found.2 := by
  obtain ⟨index, params⟩ := found
  simp only [Table.candidates, List.mem_filterMap, Option.map_eq_some_iff, Prod.mk.injEq]
  constructor
  · rintro ⟨rule, hrule, params, hmatched, rfl, rfl⟩
    exact ⟨rule, hrule, rfl, hmatched⟩
  · rintro ⟨rule, hrule, rfl, hmatched⟩
    exact ⟨rule, hrule, params, hmatched, rfl, rfl⟩

/-- The fold of `update_found` over the candidates is the least one. -/
theorem Table.least_foldl {table : Table} (h : ∀ rule ∈ table, rule.2 ≠ 0) (url : Bytes) :
    table.Least url ((table.candidates ({}, url)).foldl Found.update (0, {})) := by
  have hmem := Found.foldl_mem (table.candidates ({}, url)) (0, {})
  have hbeats := (Found.foldl_beats (table.candidates ({}, url)) (0, {})).2
  generalize (table.candidates ({}, url)).foldl Found.update (0, {}) = found at hmem hbeats
  have hmatched : ∀ rule ∈ table, matched rule.1 ({}, url) ≠ none → found.1 ≠ 0 ∧ found.1 ≤ rule.2 := by
    intro rule hrule hmatched
    obtain ⟨params, hparams⟩ := Option.ne_none_iff_exists'.1 hmatched
    exact hbeats (rule.2, params) (mem_candidates.2 ⟨rule, hrule, rfl, hparams⟩) (h rule hrule)
  have hrule : found.1 ≠ 0 → ∃ rule ∈ table, rule.2 = found.1 ∧ matched rule.1 ({}, url) = some found.2 := by
    intro hne
    rcases hmem with hnone | hmem
    · rw [hnone] at hne
      exact absurd rfl hne
    · exact mem_candidates.1 hmem
  refine ⟨⟨fun hzero rule hr => ?_, fun hnone => ?_⟩, hrule, fun rule hr hm => (hmatched rule hr hm).2⟩
  · by_contra hm
    exact (hmatched rule hr hm).1 hzero
  · by_contra hne
    obtain ⟨rule, hr, -, hm⟩ := hrule hne
    rw [hnone rule hr] at hm
    cases hm

theorem Trie.find_eq {trie : Trie} (h : trie.head.Proper) (url : Bytes) :
    trie.find url = (trie.head.rules.candidates ({}, url)).foldl Found.update (0, {}) := by
  have hfind := trie.head.find_eq h ({}, url) (0, {})
  obtain ⟨⟨ruleIndex, key, param, children⟩⟩ := trie
  obtain ⟨hlabels, hchildren⟩ := h
  rw [← hfind, find, Node.find]
  by_cases hurl : url = []
  · by_cases hi : ruleIndex = 0 <;> simp [hurl, hi, Found.update]
  · rw [if_neg hurl, findChildren_eq fun child hc => child.find_eq (hchildren child hc), Found.update_foldl,
      Found.update_zero]

/-- `find` finds the rule with the least index among those that match. -/
theorem Trie.find_least {trie : Trie} (h : trie.head.Proper) (url : Bytes) :
    trie.head.rules.Least url (trie.find url) := by
  rw [find_eq h]
  exact Table.least_foldl trie.head.rules_ne_zero url

end Find

/-! ### `optimize` leaves the rules as they are -/

theorem Node.rules_optimizeAs (node : Node) (key : Bytes) :
    Table.under (node.optimizeAs key).label (node.optimizeAs key).rules =
      Table.under (labelOf key node.param) node.rules := by
  induction node using Node.induct generalizing key with
  | node ruleIndex oldKey param children ih =>
    cases children with
    | nil => rfl
    | cons child children =>
      rw [optimizeAs]
      by_cases h : ruleIndex = 0 ∧ children = [] ∧ param = none ∧ child.param = none
      · rw [if_pos h, ih child List.mem_cons_self]
        obtain ⟨rfl, rfl, rfl, hparam⟩ := h
        have hlabel : labelOf (key ++ child.key) child.param = labelOf key none ++ child.label := by
          rw [label, hparam]
          exact List.map_append
        rw [hlabel, ← Table.under_under]
        simp [rules, rulesBelow]
      · have hchildren : rulesBelow (optimizeChildren children) = rulesBelow children := by
          have hall : ∀ c ∈ children, Table.under c.optimizeNode.label c.optimizeNode.rules =
              Table.under c.label c.rules := fun c hc => ih c (List.mem_cons_of_mem _ hc) c.key
          clear ih h
          rw [optimizeChildren_eq]
          induction children with
          | nil => rfl
          | cons c children ih' =>
            rw [List.map_cons, rulesBelow_cons, rulesBelow_cons, hall c List.mem_cons_self,
              ih' fun c' hc' => hall c' (List.mem_cons_of_mem _ hc')]
        rw [if_neg h, rules, rules, rulesBelow_cons, rulesBelow_cons, hchildren, ih child List.mem_cons_self]
        rfl

theorem rulesBelow_optimize (children : List Node) :
    rulesBelow (children.map Node.optimizeNode) = rulesBelow children := by
  induction children with
  | nil => rfl
  | cons child children ih =>
    rw [List.map_cons, rulesBelow_cons, rulesBelow_cons, ih]
    exact congrArg (· ++ _) (child.rules_optimizeAs child.key)

theorem Node.proper_optimizeAs (node : Node) (h : node.Proper) (key : Bytes) :
    (node.optimizeAs key).Proper ∧ (labelOf key node.param ≠ [] → (node.optimizeAs key).label ≠ []) := by
  induction node using Node.induct generalizing key with
  | node ruleIndex oldKey param children ih =>
    obtain ⟨hlabels, hchildren⟩ := h
    cases children with
    | nil => exact ⟨⟨List.forall_mem_nil _, List.forall_mem_nil _⟩, id⟩
    | cons child children =>
      rw [optimizeAs]
      have hchild := ih child List.mem_cons_self (hchildren child List.mem_cons_self)
      by_cases h : ruleIndex = 0 ∧ children = [] ∧ param = none ∧ child.param = none
      · rw [if_pos h]
        obtain ⟨-, -, hparam, hcparam⟩ := h
        obtain ⟨hproper, hlabel⟩ := hchild (key ++ child.key)
        refine ⟨hproper, fun hne => hlabel ?_⟩
        rw [hparam] at hne
        rw [hcparam]
        intro he
        simp [labelOf] at he hne
        exact hne he.1
      · rw [if_neg h, optimizeChildren_eq]
        have hall : ∀ c' ∈ (child :: children).map optimizeNode, c'.label ≠ [] ∧ c'.Proper := by
          intro c' hc'
          obtain ⟨c, hc, rfl⟩ := List.mem_map.1 hc'
          obtain ⟨hproper, hlabel⟩ := ih c hc (hchildren c hc) c.key
          exact ⟨hlabel (hlabels c hc), hproper⟩
        exact ⟨⟨fun c hc => (hall c hc).1, fun c hc => (hall c hc).2⟩, id⟩

theorem Trie.rules_optimize (trie : Trie) : trie.optimize.head.rules = trie.head.rules := by
  obtain ⟨⟨ruleIndex, key, param, children⟩⟩ := trie
  show Node.rules ⟨ruleIndex, key, param, children.map Node.optimizeNode⟩ = Node.rules ⟨ruleIndex, key, param, children⟩
  rw [Node.rules, Node.rules, rulesBelow_optimize]

theorem Trie.proper_optimize {trie : Trie} (h : trie.head.Proper) : trie.optimize.head.Proper := by
  obtain ⟨⟨ruleIndex, key, param, children⟩⟩ := trie
  obtain ⟨hlabels, hchildren⟩ := h
  exact ⟨List.forall_mem_map.2 fun c hc => (c.proper_optimizeAs (hchildren c hc) c.key).2 (hlabels c hc),
    List.forall_mem_map.2 fun c hc => (c.proper_optimizeAs (hchildren c hc) c.key).1⟩

/-- `find` finds the same in the optimized tree. -/
theorem Trie.find_optimize [Strtod] {trie : Trie} (h : trie.head.Proper) (url : Bytes) :
    trie.optimize.find url = trie.find url := by
  rw [find_eq (proper_optimize h), find_eq h, rules_optimize]

/-! ### `add` adds a rule -/

/-- The node stands for the piece alone. -/
def Piece.Labels (piece : Piece) (node : Node) : Prop := node.key = piece.newNode.key ∧ node.param = piece.newNode.param

theorem Piece.Labels.label {piece : Piece} {node : Node} (h : piece.Labels node) : node.label = [piece] := by
  rw [Node.label, h.1, h.2]
  cases piece <;> rfl

/-- A piece that can be told from the empty key of a parameter. -/
def Piece.Visible (piece : Piece) : Prop := piece ≠ .char 0

theorem Piece.Labels.fits_iff {piece piece' : Piece} {node : Node} (h : piece'.Labels node) (hv : piece.Visible) :
    piece.fits node = true ↔ piece' = piece := by
  cases piece with
  | char c =>
    cases piece' with
    | char c' => simp [fits, h.1, newNode, Node.leaf]
    | param type =>
      have hc : (0 : UInt8) ≠ c := fun hc => hv (hc ▸ rfl)
      simpa [fits, h.1, newNode, Node.leaf] using hc
  | param type => cases piece' <;> simp [fits, h.2, newNode, Node.leaf]

/-- A tree that is not optimized: a node for each piece, and no two of the same piece side by side. -/
inductive Node.Plain : Node → Prop
  | node {ruleIndex : Nat} {key : Bytes} {param : Option ParamType} {children : List Node} :
      (∀ child ∈ children, ∃ piece : Piece, piece.Labels child) → (children.map Node.label).Nodup →
      (∀ child ∈ children, child.Plain) → Plain ⟨ruleIndex, key, param, children⟩

theorem Node.Plain.proper {node : Node} (h : node.Plain) : node.Proper := by
  induction h with
  | node hlabels _ _ ih =>
    refine ⟨fun child hc => ?_, ih⟩
    obtain ⟨piece, hpiece⟩ := hlabels child hc
    rw [hpiece.label]
    exact List.cons_ne_nil _ _

theorem Node.plain_leaf (key : Bytes) (param : Option ParamType) : (Node.leaf key param).Plain :=
  ⟨List.forall_mem_nil _, List.nodup_nil, List.forall_mem_nil _⟩

theorem Piece.labels_newNode (piece : Piece) : piece.Labels piece.newNode := ⟨rfl, rfl⟩

/-- `add` goes on at the child of the piece, or at a new one. -/
theorem addBelow_cases (piece : Piece) (add : Node → Option Node) (children : List Node) :
    (∃ before child after, children = before ++ child :: after ∧ piece.fits child = true ∧
      addBelow piece add children = (add child).map fun child => before ++ child :: after) ∨
    ((∀ child ∈ children, piece.fits child = false) ∧
      addBelow piece add children = (add piece.newNode).map fun child => children ++ [child]) := by
  induction children with
  | nil => exact Or.inr ⟨List.forall_mem_nil _, rfl⟩
  | cons child children ih =>
    by_cases hfits : piece.fits child = true
    · exact Or.inl ⟨[], child, children, rfl, hfits, by simp [addBelow, hfits]⟩
    · have hskip : addBelow piece add (child :: children) = (addBelow piece add children).map (child :: ·) := by
        simp [addBelow, hfits]
      rcases ih with ⟨before, child', after, rfl, hfits', he⟩ | ⟨hnone, he⟩
      · left
        refine ⟨child :: before, child', after, rfl, hfits', ?_⟩
        rw [hskip, he, Option.map_map]
        rfl
      · right
        refine ⟨List.forall_mem_cons.2 ⟨by simpa using hfits, hnone⟩, ?_⟩
        rw [hskip, he, Option.map_map]
        rfl

/-- The patterns of a table. -/
def Table.patterns (table : Table) : List Pattern := table.map Prod.fst

theorem Table.mem_patterns_under {label pattern : Pattern} {table : Table} :
    pattern ∈ (Table.under label table).patterns ↔ ∃ q ∈ table.patterns, pattern = label ++ q := by
  simp only [patterns, under, List.map_map, List.mem_map, Function.comp_apply]
  constructor
  · rintro ⟨rule, hrule, rfl⟩
    exact ⟨_, ⟨rule, hrule, rfl⟩, rfl⟩
  · rintro ⟨_, ⟨rule, hrule, rfl⟩, rfl⟩
    exact ⟨rule, hrule, rfl⟩

theorem mem_patterns_rulesBelow {children : List Node} {pattern : Pattern} :
    pattern ∈ (rulesBelow children).patterns ↔
      ∃ child ∈ children, ∃ q ∈ child.rules.patterns, pattern = child.label ++ q := by
  induction children with
  | nil => simp [rulesBelow, Table.patterns]
  | cons child children ih =>
    have happend : (rulesBelow (child :: children)).patterns =
        (Table.under child.label child.rules).patterns ++ (rulesBelow children).patterns := by
      rw [rulesBelow_cons]
      exact List.map_append
    rw [happend, List.mem_append, Table.mem_patterns_under, ih]
    simp

/-- There are rules below every child. -/
def Node.Live (node : Node) : Prop := ∀ child ∈ node.children, child.rules ≠ []

/-- What `add` does: it throws where there is such a rule already, and otherwise the rule is in the table. -/
structure Node.Added (node : Node) (pattern : Pattern) (ruleIndex : Nat) (result : Option Node) : Prop where
  throws : result = none ↔ pattern ∈ node.rules.patterns
  adds : ∀ node', result = some node' → node'.Plain ∧ node'.key = node.key ∧ node'.param = node.param ∧
    node'.rules.Perm ((pattern, ruleIndex) :: node.rules)
  live : ∀ node', result = some node' → node.Live → node'.Live

theorem Node.rules_eq (ruleIndex : Nat) (key : Bytes) (param : Option ParamType) (children : List Node) :
    Node.rules ⟨ruleIndex, key, param, children⟩ =
      (if ruleIndex = 0 then [] else [([], ruleIndex)]) ++ rulesBelow children := by
  rw [rules]

/-- The rules at a node and below it. -/
theorem Node.mem_patterns {ruleIndex : Nat} {key : Bytes} {param : Option ParamType} {children : List Node}
    {pattern : Pattern} :
    pattern ∈ (Node.rules ⟨ruleIndex, key, param, children⟩).patterns ↔
      (pattern = [] ∧ ruleIndex ≠ 0) ∨ ∃ child ∈ children, ∃ q ∈ child.rules.patterns, pattern = child.label ++ q := by
  rw [rules_eq, Table.patterns, List.map_append, List.mem_append]
  refine or_congr ?_ mem_patterns_rulesBelow
  by_cases hi : ruleIndex = 0 <;> simp [hi]

/-- A pattern that begins with a piece is looked for below the child of the piece. -/
theorem Node.mem_patterns_cons {ruleIndex : Nat} {key : Bytes} {param : Option ParamType} {children : List Node}
    (h : Plain ⟨ruleIndex, key, param, children⟩) {piece : Piece} {pattern : Pattern} :
    piece :: pattern ∈ (Node.rules ⟨ruleIndex, key, param, children⟩).patterns ↔
      ∃ child ∈ children, piece.Labels child ∧ pattern ∈ child.rules.patterns := by
  obtain ⟨hlabels, -, -⟩ := h
  rw [mem_patterns]
  constructor
  · rintro (⟨he, -⟩ | ⟨child, hc, q, hq, he⟩)
    · cases he
    · obtain ⟨piece', hpiece⟩ := hlabels child hc
      rw [hpiece.label] at he
      obtain ⟨rfl, rfl⟩ := List.cons.inj he
      exact ⟨child, hc, hpiece, hq⟩
  · rintro ⟨child, hc, hpiece, hq⟩
    exact Or.inr ⟨child, hc, pattern, hq, by rw [hpiece.label]; rfl⟩

/-- The rule is in the table of the node when it is in that of a child. -/
theorem Node.perm_rulesBelow {piece : Piece} {pattern : Pattern} {ruleIndex : Nat} {child child' : Node}
    (hlabel : piece.Labels child) (hlabel' : piece.Labels child')
    (hperm : child'.rules.Perm ((pattern, ruleIndex) :: child.rules)) (before after : List Node) :
    (rulesBelow (before ++ child' :: after)).Perm
      ((piece :: pattern, ruleIndex) :: rulesBelow (before ++ child :: after)) := by
  have hunder : (Table.under [piece] child'.rules).Perm
      ((piece :: pattern, ruleIndex) :: Table.under [piece] child.rules) := hperm.map _
  rw [rulesBelow_append, rulesBelow_append, rulesBelow_cons, rulesBelow_cons, hlabel.label, hlabel'.label]
  exact ((hunder.append_right _).append_left _).trans List.perm_middle

/-- `add` at the end of the URL. -/
theorem Node.add_end {ruleIndex : Nat} (hi : ruleIndex ≠ 0) {node : Node} (h : node.Plain) :
    node.Added [] ruleIndex (node.add ruleIndex []) := by
  obtain ⟨oldIndex, key, param, children⟩ := node
  obtain ⟨hlabels, hnodup, hplain⟩ := h
  have hbelow : ∀ child ∈ children, ∀ q, [] ≠ child.label ++ q := by
    intro child hc q
    obtain ⟨piece, hpiece⟩ := hlabels child hc
    rw [hpiece.label]
    exact (List.cons_ne_nil _ _).symm
  rw [add]
  by_cases hold : oldIndex = 0
  · subst hold
    rw [if_neg (by simp)]
    refine ⟨⟨nofun, fun hmem => ?_⟩, fun node' he => ?_, fun node' he hlive => ?_⟩
    · rcases mem_patterns.1 hmem with ⟨-, hne⟩ | ⟨child, hc, q, -, he⟩
      · exact absurd rfl hne
      · exact absurd he (hbelow child hc q)
    · cases he
      refine ⟨⟨hlabels, hnodup, hplain⟩, rfl, rfl, ?_⟩
      rw [rules_eq, rules_eq, if_neg hi, if_pos rfl]
      exact List.Perm.refl _
    · cases he
      exact hlive
  · rw [if_pos hold]
    exact ⟨⟨fun _ => mem_patterns.2 (Or.inl ⟨rfl, hold⟩), fun _ => rfl⟩, nofun, nofun⟩

/-- A child may be exchanged for another one of the same piece. -/
theorem Node.Plain.exchange {ruleIndex : Nat} {key : Bytes} {param : Option ParamType} {before after : List Node}
    {child child' : Node} {piece : Piece} (h : Plain ⟨ruleIndex, key, param, before ++ child :: after⟩)
    (hlabel : piece.Labels child) (hlabel' : piece.Labels child') (hplain' : child'.Plain) :
    Plain ⟨ruleIndex, key, param, before ++ child' :: after⟩ := by
  obtain ⟨hlabels, hnodup, hplain⟩ := h
  have hmem : ∀ c ∈ before ++ child' :: after, c = child' ∨ c ∈ before ++ child :: after := by
    intro c hc
    simp only [List.mem_append, List.mem_cons] at hc ⊢
    grind
  refine ⟨fun c hc => ?_, ?_, fun c hc => ?_⟩
  · rcases hmem c hc with rfl | hc
    · exact ⟨piece, hlabel'⟩
    · exact hlabels c hc
  · simpa [hlabel.label, hlabel'.label] using hnodup
  · rcases hmem c hc with rfl | hc
    · exact hplain'
    · exact hplain c hc

/-- A new node may be added for a piece for which there is none. -/
theorem Node.Plain.append {ruleIndex : Nat} {key : Bytes} {param : Option ParamType} {children : List Node}
    {child : Node} {piece : Piece} (h : Plain ⟨ruleIndex, key, param, children⟩) (hlabel : piece.Labels child)
    (hplain : child.Plain) (hnone : ∀ c ∈ children, ¬ piece.Labels c) :
    Plain ⟨ruleIndex, key, param, children ++ [child]⟩ := by
  obtain ⟨hlabels, hnodup, hchildren⟩ := h
  refine ⟨fun c hc => ?_, ?_, fun c hc => ?_⟩
  · rcases List.mem_append.1 hc with hc | hc
    · exact hlabels c hc
    · exact ⟨piece, List.mem_singleton.1 hc ▸ hlabel⟩
  · rw [List.map_append, List.nodup_append]
    refine ⟨hnodup, List.nodup_singleton _, ?_⟩
    intro p hp q hq he
    obtain ⟨c, hc, rfl⟩ := List.mem_map.1 hp
    obtain rfl := List.mem_singleton.1 hq
    obtain ⟨piece', hpiece'⟩ := hlabels c hc
    rw [hpiece'.label, hlabel.label] at he
    exact hnone c hc ((List.cons.inj he).1 ▸ hpiece')
  · rcases List.mem_append.1 hc with hc | hc
    · exact hchildren c hc
    · exact List.mem_singleton.1 hc ▸ hplain

/-- `add` goes on at the one child of the piece, which may be a new one. -/
theorem Node.Plain.addBelow_eq {ruleIndex : Nat} {key : Bytes} {param : Option ParamType} {children : List Node}
    (h : Plain ⟨ruleIndex, key, param, children⟩) {piece : Piece} (hv : piece.Visible) (add : Node → Option Node) :
    ∃ before child after, piece.Labels child ∧ Plain ⟨ruleIndex, key, param, before ++ child :: after⟩ ∧
      rulesBelow (before ++ child :: after) = rulesBelow children ∧ (∀ c ∈ before ++ after, c ∈ children) ∧
      addBelow piece add children = (add child).map fun child => before ++ child :: after := by
  have hplain := h
  obtain ⟨hlabels, -, -⟩ := h
  rcases addBelow_cases piece add children with ⟨before, child, after, rfl, hfits, he⟩ | ⟨hnone, he⟩
  · obtain ⟨piece', hpiece'⟩ := hlabels child (List.mem_append_right _ List.mem_cons_self)
    obtain rfl := (hpiece'.fits_iff hv).1 hfits
    refine ⟨before, child, after, hpiece', hplain, rfl, fun c hc => ?_, he⟩
    rcases List.mem_append.1 hc with hc | hc
    · exact List.mem_append_left _ hc
    · exact List.mem_append_right _ (List.mem_cons_of_mem _ hc)
  · have hnew : piece.newNode.Plain ∧ piece.newNode.rules = [] := by
      cases piece <;> exact ⟨plain_leaf _ _, by rw [Piece.newNode, leaf, rules_eq, if_pos rfl, rulesBelow]; rfl⟩
    refine ⟨children, piece.newNode, [], piece.labels_newNode, ?_, ?_, fun c hc => by simpa using hc, he⟩
    · refine hplain.append piece.labels_newNode hnew.1 fun c hc hlabel => ?_
      have hfits := (hlabel.fits_iff hv).2 rfl
      rw [hnone c hc] at hfits
      cases hfits
    · rw [rulesBelow_append, rulesBelow_cons, hnew.2]
      exact List.append_nil _

/-- `add` in a tree that is not optimized. -/
theorem Node.add_spec {ruleIndex : Nat} (hi : ruleIndex ≠ 0) {pattern : Pattern} (hv : ∀ piece ∈ pattern, piece.Visible)
    {node : Node} (h : node.Plain) : node.Added pattern ruleIndex (node.add ruleIndex pattern) := by
  induction pattern generalizing node with
  | nil => exact add_end hi h
  | cons piece pattern ih =>
    obtain ⟨hpiece, hpattern⟩ := List.forall_mem_cons.1 hv
    obtain ⟨oldIndex, key, param, children⟩ := node
    obtain ⟨before, child, after, hlabel, hplain, hrules, hothers, he⟩ :=
      h.addBelow_eq hpiece (Node.add ruleIndex pattern)
    have hsame : Node.rules ⟨oldIndex, key, param, children⟩ =
        Node.rules ⟨oldIndex, key, param, before ++ child :: after⟩ := by
      rw [rules_eq, rules_eq, hrules]
    have hmem : piece :: pattern ∈ (Node.rules ⟨oldIndex, key, param, before ++ child :: after⟩).patterns ↔
        ∃ child' ∈ before ++ child :: after, piece.Labels child' ∧ pattern ∈ child'.rules.patterns :=
      mem_patterns_cons hplain
    have hchild : child ∈ before ++ child :: after := List.mem_append_right _ List.mem_cons_self
    have hthis := hplain
    obtain ⟨-, hnodup, hchildren⟩ := hthis
    obtain ⟨hthrows, hadds, -⟩ := ih hpattern (hchildren child hchild)
    rw [add, he]
    refine ⟨?_, fun node' hnode' => ?_, fun node' hnode' hlive => ?_⟩
    · rw [hsame, hmem, Option.map_map, Option.map_eq_none_iff, hthrows]
      refine ⟨fun hq => ⟨child, hchild, hlabel, hq⟩, ?_⟩
      rintro ⟨child', hc', hlabel', hq⟩
      -- there is one child of the piece
      obtain rfl := List.inj_on_of_nodup_map hnodup hc' hchild (hlabel'.label.trans hlabel.label.symm)
      exact hq
    · simp only [Option.map_map, Option.map_eq_some_iff] at hnode'
      obtain ⟨child', hadd, rfl⟩ := hnode'
      obtain ⟨hplain', hkey, hparam, hperm⟩ := hadds child' hadd
      have hlabel' : piece.Labels child' := ⟨hkey.trans hlabel.1, hparam.trans hlabel.2⟩
      refine ⟨hplain.exchange hlabel hlabel' hplain', rfl, rfl, ?_⟩
      rw [hsame]
      dsimp only [Function.comp_apply]
      rw [rules_eq, rules_eq]
      exact ((perm_rulesBelow hlabel hlabel' hperm before after).append_left _).trans List.perm_middle
    · simp only [Option.map_map, Option.map_eq_some_iff] at hnode'
      obtain ⟨child', hadd, rfl⟩ := hnode'
      obtain ⟨-, -, -, hperm⟩ := hadds child' hadd
      intro c hc
      rcases List.mem_append.1 hc with hc | hc
      · exact hlive c (hothers c (List.mem_append_left _ hc))
      · rcases List.mem_cons.1 hc with rfl | hc
        · intro hnone
          rw [hnone] at hperm
          exact absurd hperm.length_eq (by simp)
        · exact hlive c (hothers c (List.mem_append_right _ hc))

/-! ### Trees -/

theorem mem_of_mem_pieces {c : UInt8} (url : Bytes) (skip : Nat) {pattern : Pattern}
    (h : pieces skip url = some pattern) (hc : .char c ∈ pattern) : c ∈ url := by
  induction url generalizing skip pattern with
  | nil =>
    cases h
    cases hc
  | cons d url ih =>
    cases skip with
    | succ skip => exact List.mem_cons_of_mem _ (ih skip h hc)
    | zero =>
      rw [pieces] at h
      split at h
      · split at h
        · obtain ⟨rest, hrest, rfl⟩ := Option.map_eq_some_iff.1 h
          rcases List.mem_cons.1 hc with he | hc
          · cases he
          · exact List.mem_cons_of_mem _ (ih _ hrest hc)
        · cases h
      · obtain ⟨rest, hrest, rfl⟩ := Option.map_eq_some_iff.1 h
        rcases List.mem_cons.1 hc with he | hc
        · cases he
          exact List.mem_cons_self
        · exact List.mem_cons_of_mem _ (ih _ hrest hc)

theorem Table.Least.perm [Strtod] {t t' : Table} {url : Bytes} {found : Found} (h : t.Least url found)
    (hp : t.Perm t') : t'.Least url found where
  unmatched := by
    rw [h.unmatched]
    exact ⟨fun hn rule hr => hn rule (hp.mem_iff.2 hr), fun hn rule hr => hn rule (hp.mem_iff.1 hr)⟩
  rule hne := by
    obtain ⟨rule, hr, hrule⟩ := h.rule hne
    exact ⟨rule, hp.mem_iff.1 hr, hrule⟩
  le rule hr := h.le rule (hp.mem_iff.2 hr)

theorem Table.Perm.mem_patterns {t t' : Table} (h : t.Perm t') (pattern : Pattern) :
    pattern ∈ t.patterns ↔ pattern ∈ t'.patterns := (h.map Prod.fst).mem_iff

/-- `add` on a tree of rules. -/
theorem Trie.add_spec {trie : Trie} {table : Table} (hplain : trie.head.Plain) (htable : trie.head.rules.Perm table)
    {url : Bytes} {pattern : Pattern} (hurl : pieces 0 url = some pattern) (hv : ∀ piece ∈ pattern, piece.Visible)
    {index : Nat} (hi : index ≠ 0) :
    (trie.add url index = none ↔ pattern ∈ table.patterns) ∧
      ∀ trie', trie.add url index = some trie' → trie'.head.Plain ∧ (trie.head.Live → trie'.head.Live) ∧
        trie'.head.param = trie.head.param ∧ trie'.head.rules.Perm ((pattern, index) :: table) := by
  obtain ⟨hthrows, hadds, hlive⟩ := trie.head.add_spec hi hv hplain
  have hadd : trie.add url index = (trie.head.add index pattern).map Trie.mk := by
    unfold add
    rw [hurl]
    show (trie.head.add index pattern).bind (fun head => some (Trie.mk head)) = _
    cases trie.head.add index pattern <;> rfl
  rw [hadd]
  refine ⟨?_, fun trie' h => ?_⟩
  · rw [Option.map_eq_none_iff, hthrows, Table.Perm.mem_patterns htable]
  · obtain ⟨head, hhead, rfl⟩ := Option.map_eq_some_iff.1 h
    obtain ⟨hplain', -, hparam, hperm⟩ := hadds head hhead
    exact ⟨hplain', hlive head hhead, hparam, hperm.trans (htable.cons _)⟩

theorem visible_of_pieces {url : Bytes} {pattern : Pattern} (hurl : pieces 0 url = some pattern) (hnul : 0 ∉ url) :
    ∀ piece ∈ pattern, piece.Visible := by
  intro piece hpiece he
  subst he
  exact hnul (mem_of_mem_pieces _ _ hurl hpiece)

namespace Trie

/-- The tree to which these rules have been added, URLs with their indices. -/
def addAll (rules : List (Bytes × Nat)) : Option Trie := rules.foldlM (fun trie rule => trie.add rule.1 rule.2) empty

/-- The table of these rules. -/
def tableOf (rules : List (Bytes × Nat)) : Table := rules.map fun rule => ((pieces 0 rule.1).getD [], rule.2)

theorem patterns_tableOf_concat (rules : List (Bytes × Nat)) (rule : Bytes × Nat) :
    (tableOf (rules ++ [rule])).patterns = (tableOf rules).patterns ++ [(pieces 0 rule.1).getD []] := by
  simp [tableOf, Table.patterns]

/-- The rules can be added if their URLs can be parsed and no pattern occurs twice. -/
theorem addAll_spec {rules : List (Bytes × Nat)} (hrules : ∀ rule ∈ rules, 0 ∉ rule.1 ∧ rule.2 ≠ 0) :
    ((addAll rules).isSome ↔ (∀ rule ∈ rules, (pieces 0 rule.1).isSome) ∧ (tableOf rules).patterns.Nodup) ∧
      ∀ trie, addAll rules = some trie → trie.head.Plain ∧ trie.head.rules.Perm (tableOf rules) := by
  induction rules using List.reverseRecOn with
  | nil =>
    refine ⟨⟨fun _ => ⟨List.forall_mem_nil _, List.nodup_nil⟩, fun _ => rfl⟩, fun trie he => ?_⟩
    cases he
    refine ⟨Node.plain_leaf _ _, ?_⟩
    rw [empty, Node.leaf, Node.rules_eq, if_pos rfl, rulesBelow]
    exact List.Perm.refl _
  | append_singleton rules rule ih =>
    obtain ⟨hiff, hsome⟩ := ih fun r hr => hrules r (List.mem_append_left _ hr)
    obtain ⟨hnul, hindex⟩ := hrules rule (List.mem_append_right _ List.mem_cons_self)
    have hadd : addAll (rules ++ [rule]) = (addAll rules).bind fun trie => trie.add rule.1 rule.2 := by
      unfold addAll
      rw [List.foldlM_append]
      refine congrArg _ (funext fun trie => ?_)
      cases he : trie.add rule.1 rule.2 <;> simp [he]
    rw [hadd, patterns_tableOf_concat]
    simp only [List.forall_mem_append, List.forall_mem_singleton]
    rw [← List.concat_eq_append, List.nodup_concat]
    cases htrie : addAll rules with
    | none =>
      rw [htrie] at hiff
      refine ⟨⟨nofun, fun h => ?_⟩, nofun⟩
      exact hiff.2 ⟨h.1.1, h.2.2⟩
    | some trie =>
      rw [htrie] at hiff
      obtain ⟨hparsed, hnodup⟩ := hiff.1 rfl
      obtain ⟨hplain, htable⟩ := hsome trie htrie
      rw [Option.bind_some]
      cases hpieces : pieces 0 rule.1 with
      | none =>
        have hthrow : trie.add rule.1 rule.2 = none := by
          unfold add
          rw [hpieces]
          rfl
        rw [hthrow]
        exact ⟨⟨nofun, fun h => absurd h.1.2 (by simp)⟩, nofun⟩
      | some pattern =>
        obtain ⟨hthrows, hadds⟩ := add_spec hplain htable hpieces (visible_of_pieces hpieces hnul) hindex
        refine ⟨?_, fun trie' he => ?_⟩
        · rw [Option.isSome_iff_ne_none, Ne, hthrows]
          exact ⟨fun h => ⟨⟨hparsed, rfl⟩, h, hnodup⟩, fun h => h.2.1⟩
        · obtain ⟨hplain', -, -, htable'⟩ := hadds trie' he
          refine ⟨hplain', htable'.trans ?_⟩
          have htable₁ : tableOf (rules ++ [rule]) = tableOf rules ++ [(pattern, rule.2)] := by simp [tableOf, hpieces]
          rw [htable₁]
          exact (List.perm_append_singleton _ _).symm

/-- Whatever rules are added, in whatever order: no rule is lost or taken for another one; in the optimized tree the
same is found under every URL as before, the least index of the rules that match, with the parameters of such a
rule. -/
theorem find_optimize_addAll [Strtod] {rules : List (Bytes × Nat)} (hrules : ∀ rule ∈ rules, 0 ∉ rule.1 ∧ rule.2 ≠ 0) :
    ((addAll rules).isSome ↔ (∀ rule ∈ rules, (pieces 0 rule.1).isSome) ∧ (tableOf rules).patterns.Nodup) ∧
      ∀ trie, addAll rules = some trie → ∀ url,
        trie.optimize.find url = trie.find url ∧ (tableOf rules).Least url (trie.optimize.find url) := by
  obtain ⟨hiff, hsome⟩ := addAll_spec hrules
  refine ⟨hiff, fun trie h url => ?_⟩
  obtain ⟨hplain, htable⟩ := hsome trie h
  have hsame := find_optimize hplain.proper url
  refine ⟨hsame, ?_⟩
  rw [hsame]
  exact (find_least hplain.proper url).perm htable

section Runs

attribute [local instance] Strtod.none

/-- A text and two parameters that match it, of which the text was added last and has the least index. -/
theorem least_index_found : ∃ trie,
    addAll [(ascii "/a/<string>", 3), (ascii "/a/<int>", 4), (ascii "/a/12", 2)] = some trie ∧
      trie.optimize.find (ascii "/a/12") = (2, {}) := by
  have hfind : (addAll [(ascii "/a/<string>", 3), (ascii "/a/<int>", 4), (ascii "/a/12", 2)]).map
      (·.find (ascii "/a/12")) = some (2, {}) := by decide +kernel
  obtain ⟨trie, htrie, hfind⟩ := Option.map_eq_some_iff.1 hfind
  refine ⟨trie, htrie, ?_⟩
  rw [((find_optimize_addAll (by decide)).2 trie htrie (ascii "/a/12")).1, hfind]

end Runs

end Trie

end Crow

end KeyValueServer
