import KeyValueServer.Crow.Router
import KeyValueServer.Crow.TrieRules
import Mathlib.Data.List.Find
import Mathlib.Logic.Function.Basic

/-!
# The router and the order of the rules

For every list of rules whose indices are numbers of 16 bits, `validate` succeeds if and only if no pattern occurs twice
for a method and all patterns of a method begin with the same character; and then `handle` answers as a search through
the rules in the order of their registration would, where a redirect comes first (`Router.validate_correct`).
-/

namespace KeyValueServer

namespace Crow

section Router

variable {H : Type}

/-! ### A search through the rules -/

/-- What the rules say about a URL, without a tree. -/
inductive Lookup (H : Type)
  | none
  | redirect
  | rule (rule : Rule H) (params : RoutingParams)

/-- The URL without the slash of a directory, as a pattern. -/
def Rule.slashless (rule : Rule H) : Option Pattern :=
  if (withoutTrailingSlash rule.url).isSome then some rule.pattern.dropLast else none

/-- The URL of a directory without its slash. -/
def Rule.redirects [Strtod] (rule : Rule H) (url : Bytes) : Bool :=
  rule.slashless.any fun pattern => (matched pattern ({}, url)).isSome

/-- A redirect comes before every rule; of the rules that match, the first one counts. -/
def scan [Strtod] (rules : List (Rule H)) (url : Bytes) : Lookup H :=
  if rules.any (·.redirects url) then .redirect
  else
    match rules.findSome? fun rule => (matched rule.pattern ({}, url)).map (rule, ·) with
    | some (rule, params) => .rule rule params
    | none => .none

def lookup [Strtod] (rules : List (Rule H)) (url : Bytes) (method : HTTPMethod) : Lookup H :=
  scan (rules.filter (·.allows method)) url

def Lookup.isNone : Lookup H → Bool
  | .none => true
  | _ => false

/-- The same as `Router.handle`, with a search through the rules. -/
def reaction [Strtod] (rules : List (Rule H)) (method : HTTPMethod) (url : Bytes) : Reaction H :=
  let serving := HTTPMethod.all.filter fun method => !(lookup rules url method).isNone
  if method = .options then
    if url = ascii "/*" then
      .allow (Router.allowText (HTTPMethod.all.filter fun method => rules.any (·.allows method)))
    else if serving = [] then .notFound
    else .allow (Router.allowText serving)
  else
    match lookup rules url (if method = .head then .get else method) with
    | .rule rule params => .handler rule params
    | .redirect => .redirect
    | .none => if serving = [] then .notFound else .methodNotAllowed

/-- The patterns that a rule puts into a tree. -/
def Rule.patterns (rule : Rule H) : List Pattern := rule.pattern :: rule.slashless.toList

def patternsFor (rules : List (Rule H)) (method : HTTPMethod) : List Pattern :=
  (rules.filter (·.allows method)).flatMap Rule.patterns

/-- All patterns begin with the same character. -/
def OneHead (patterns : List Pattern) : Prop := ∃ c, ∀ pattern ∈ patterns, ∃ q, pattern = .char c :: q

/-! ### Patterns of URLs -/

omit H in
theorem paramTraits_getLast : paramTraits.all fun x => x.2.getLast? = some 62 := by
  decide

omit H in
theorem isPrefixOf_concat {name text : Bytes} {c d : UInt8} (hname : name.getLast? = some d) (hc : c ≠ d) :
    name.isPrefixOf (text ++ [c]) = name.isPrefixOf text := by
  rw [Bool.eq_iff_iff, List.isPrefixOf_iff_prefix, List.isPrefixOf_iff_prefix, List.prefix_concat_iff]
  refine ⟨?_, Or.inr⟩
  rintro (rfl | h)
  · rw [List.getLast?_concat] at hname
    exact absurd (Option.some.inj hname) hc
  · exact h

omit H in
/-- A character that begins no parameter is a piece of its own. -/
theorem pieces_concat {c : UInt8} (hopen : c ≠ 60) (hclose : c ≠ 62) (url : Bytes) (skip : Nat)
    (hskip : skip ≤ url.length) : pieces skip (url ++ [c]) = (pieces skip url).map (· ++ [.char c]) := by
  induction url generalizing skip with
  | nil =>
    obtain rfl : skip = 0 := Nat.le_zero.1 hskip
    simp [pieces, hopen]
  | cons d url ih =>
    cases skip with
    | succ skip => exact ih skip (Nat.le_of_succ_le_succ hskip)
    | zero =>
      by_cases hd : d = 60
      · -- the names of the parameters end with another character
        have hfind : (paramTraits.find? fun x => x.2.isPrefixOf (d :: (url ++ [c]))) =
            paramTraits.find? fun x => x.2.isPrefixOf (d :: url) := by
          refine List.find?_congr fun x hx => ?_
          rw [← List.cons_append]
          exact isPrefixOf_concat (of_decide_eq_true (List.all_eq_true.1 paramTraits_getLast x hx)) hclose
        rw [List.cons_append, pieces, pieces]
        simp only [hd, if_true] at hfind ⊢
        rw [hfind]
        cases hx : paramTraits.find? fun x => x.2.isPrefixOf (60 :: url) with
        | none => rfl
        | some x =>
          have hname := List.find?_some hx
          have hlen := (List.isPrefixOf_iff_prefix.1 hname).length_le
          rw [List.length_cons] at hlen
          dsimp only
          rw [ih (x.2.length - 1) (by omega), Option.map_map, Option.map_map]
          rfl
      · simp [pieces, hd, ih 0 (Nat.zero_le _), Option.map_map, Function.comp_def]

/-! ### Loops over the methods -/

namespace Router

theorem forMethods_cons (method : HTTPMethod) (methods : List HTTPMethod) (f : PerMethod H → Option (PerMethod H))
    (router : Router H) :
    router.forMethods (method :: methods) f =
      (f (router method)).bind fun perMethod => forMethods methods f (Function.update router method perMethod) := by
  unfold forMethods
  rw [List.foldlM_cons]
  exact Option.bind_map ..

theorem forMethods_eq_none_iff {methods : List HTTPMethod} (hnodup : methods.Nodup)
    {f : PerMethod H → Option (PerMethod H)} {router : Router H} :
    router.forMethods methods f = none ↔ ∃ method ∈ methods, f (router method) = none := by
  induction methods generalizing router with
  | nil => simp [forMethods]
  | cons method methods ih =>
    obtain ⟨hnot, hnodup⟩ := List.nodup_cons.1 hnodup
    rw [forMethods_cons]
    cases hf : f (router method) with
    | none => simp [hf]
    | some perMethod =>
      have hother : ∀ m ∈ methods, Function.update router method perMethod m = router m := fun m hm =>
        Function.update_of_ne (ne_of_mem_of_not_mem hm hnot) ..
      rw [Option.bind_some, ih hnodup]
      simp only [List.mem_cons, exists_eq_or_imp, hf]
      constructor
      · rintro ⟨m, hm, he⟩
        rw [hother m hm] at he
        exact Or.inr ⟨m, hm, he⟩
      · rintro (he | ⟨m, hm, he⟩)
        · cases he
        · exact ⟨m, hm, by rw [hother m hm, he]⟩

/-- Each method on its own. -/
theorem forMethods_eq_some {methods : List HTTPMethod} (hnodup : methods.Nodup)
    {f : PerMethod H → Option (PerMethod H)} {router router' : Router H}
    (h : router.forMethods methods f = some router') (method : HTTPMethod) :
    (method ∈ methods → f (router method) = some (router' method)) ∧
      (method ∉ methods → router' method = router method) := by
  induction methods generalizing router with
  | nil =>
    cases h
    exact ⟨fun h => absurd h List.not_mem_nil, fun _ => rfl⟩
  | cons m methods ih =>
    obtain ⟨hnot, hnodup⟩ := List.nodup_cons.1 hnodup
    rw [forMethods_cons, Option.bind_eq_some_iff] at h
    obtain ⟨perMethod, hf, h⟩ := h
    obtain ⟨hmem, hother⟩ := ih hnodup h
    by_cases hm : method = m
    · subst hm
      refine ⟨fun _ => ?_, fun hne => absurd List.mem_cons_self hne⟩
      rw [hf, hother hnot, Function.update_self]
    · rw [Function.update_of_ne hm] at hmem hother
      refine ⟨fun hin => hmem (List.mem_of_ne_of_mem hm hin), fun hout => hother fun hin => ?_⟩
      exact hout (List.mem_cons_of_mem _ hin)

end Router

/-! ### One method -/

namespace Rule

/-- What a rule puts into the tree when its place in the list is `index`. -/
def entries (rule : Rule H) (index : Nat) : Table :=
  (rule.pattern, index) :: rule.slashless.toList.map fun pattern => (pattern, redirectSlash)

theorem patterns_entries (rule : Rule H) (index : Nat) : (rule.entries index).patterns = rule.patterns := by
  simp [entries, Table.patterns, patterns, Function.comp_def]

theorem visible (rule : Rule H) : ∀ piece ∈ rule.pattern, piece.Visible := by
  intro piece hpiece he
  subst he
  exact rule.noNul (mem_of_mem_pieces _ _ rule.tagged hpiece)

/-- The tree gets the URL without its slash as the pattern without its last piece. -/
theorem pieces_withoutTrailingSlash (rule : Rule H) {url : Bytes} (h : withoutTrailingSlash rule.url = some url) :
    pieces 0 url = some rule.pattern.dropLast ∧ rule.slashless = some rule.pattern.dropLast := by
  refine ⟨?_, by rw [slashless, h]; rfl⟩
  unfold withoutTrailingSlash at h
  split at h
  · rename_i hslash
    cases h
    have hne : rule.url ≠ [] := List.ne_nil_of_length_pos (by omega)
    have hlast : rule.url.getLast hne = 47 := by
      have h47 := hslash.2
      rw [List.getLast?_eq_some_getLast hne] at h47
      exact Option.some.inj h47
    have hurl := List.dropLast_append_getLast hne
    have htagged := rule.tagged
    rw [← hurl, hlast, pieces_concat (by decide) (by decide) _ _ (Nat.zero_le _), Option.map_eq_some_iff] at htagged
    obtain ⟨pattern, hpattern, he⟩ := htagged
    rw [hpattern, ← he, List.dropLast_concat]
  · cases h

end Rule

/-- The table of the rules of a method. -/
def tableOf (rules : List (Rule H)) : Table := (rules.zipIdx 2).flatMap fun rule => rule.1.entries rule.2

theorem tableOf_concat (rules : List (Rule H)) (rule : Rule H) :
    tableOf (rules ++ [rule]) = tableOf rules ++ rule.entries (rules.length + 2) := by
  simp [tableOf, List.zipIdx_append, Nat.add_comm]

theorem patterns_tableOf (rules : List (Rule H)) : (tableOf rules).patterns = rules.flatMap Rule.patterns := by
  induction rules using List.reverseRecOn with
  | nil => rfl
  | append_singleton rules rule ih =>
    have happend : (tableOf (rules ++ [rule])).patterns =
        (tableOf rules).patterns ++ (rule.entries (rules.length + 2)).patterns := by
      rw [tableOf_concat]
      exact List.map_append
    rw [happend, ih, rule.patterns_entries, List.flatMap_append, List.flatMap_singleton]

/-- The method has these rules. -/
structure PerMethod.Holds (perMethod : PerMethod H) (rules : List (Rule H)) : Prop where
  list : perMethod.rules = none :: none :: rules.map some
  plain : perMethod.trie.head.Plain
  live : perMethod.trie.head.Live
  param : perMethod.trie.head.param = none
  table : perMethod.trie.head.rules.Perm (tableOf rules)

theorem PerMethod.holds_start : (PerMethod.start : PerMethod H).Holds [] where
  list := rfl
  plain := Node.plain_leaf _ _
  live := List.forall_mem_nil _
  param := rfl
  table := by
    rw [start, Trie.empty, Node.leaf, Node.rules_eq, if_pos rfl, rulesBelow]
    exact List.Perm.refl _

theorem PerMethod.addRule_eq {perMethod : PerMethod H} (h : perMethod.rules.length < 2 ^ 16) (rule : Rule H) :
    perMethod.addRule rule =
      (perMethod.trie.add rule.url perMethod.rules.length).bind fun trie =>
        match withoutTrailingSlash rule.url with
        | none => some ⟨perMethod.rules ++ [some rule], trie⟩
        | some url => (trie.add url redirectSlash).map fun trie => ⟨perMethod.rules ++ [some rule], trie⟩ := by
  have hlength : (perMethod.rules ++ [some rule]).length - 1 = perMethod.rules.length := by simp
  have hindex : perMethod.rules.length % 2 ^ 16 = perMethod.rules.length := Nat.mod_eq_of_lt h
  unfold addRule
  dsimp only
  rw [hlength, hindex]
  cases perMethod.trie.add rule.url perMethod.rules.length with
  | none => rfl
  | some trie =>
    cases withoutTrailingSlash rule.url with
    | none => rfl
    | some url =>
      show (trie.add url redirectSlash).bind _ = (trie.add url redirectSlash).map _
      cases trie.add url redirectSlash <;> rfl

/-- `addRule` throws where a pattern would occur twice. -/
theorem PerMethod.addRule_spec {perMethod : PerMethod H} {rules : List (Rule H)} (h : perMethod.Holds rules)
    (hnodup : (rules.flatMap Rule.patterns).Nodup) (hfits : rules.length + 2 < 2 ^ 16) (rule : Rule H) :
    (perMethod.addRule rule = none ↔ ¬ ((rules ++ [rule]).flatMap Rule.patterns).Nodup) ∧
      ∀ perMethod', perMethod.addRule rule = some perMethod' → perMethod'.Holds (rules ++ [rule]) := by
  obtain ⟨hlist, hplain, hlive, hparam, htable⟩ := h
  have hlength : perMethod.rules.length = rules.length + 2 := by simp [hlist]
  have hlist' : perMethod.rules ++ [some rule] = none :: none :: (rules ++ [rule]).map some := by simp [hlist]
  obtain ⟨hthrows, hadds⟩ := Trie.add_spec hplain htable rule.tagged rule.visible
    (show perMethod.rules.length ≠ 0 by omega)
  rw [patterns_tableOf] at hthrows
  rw [addRule_eq (hlength ▸ hfits), List.flatMap_append, List.flatMap_singleton]
  generalize hold : rules.flatMap Rule.patterns = old at hthrows hnodup
  have hone : (old ++ [rule.pattern]).Nodup ↔ rule.pattern ∉ old := by
    rw [← List.concat_eq_append, List.nodup_concat]
    exact and_iff_left hnodup
  cases hadd : perMethod.trie.add rule.url perMethod.rules.length with
  | none =>
    refine ⟨⟨fun _ hn => ?_, fun _ => rfl⟩, nofun⟩
    rw [Rule.patterns, List.append_cons] at hn
    exact hone.1 hn.of_append_left (hthrows.1 hadd)
  | some trie =>
    have hnew : (old ++ [rule.pattern]).Nodup := hone.2 fun hmem => by
      rw [hthrows.2 hmem] at hadd
      cases hadd
    obtain ⟨hplain₁, hlive₁, hparam₁, htable₁⟩ := hadds trie hadd
    rw [Option.bind_some]
    cases hslash : withoutTrailingSlash rule.url with
    | none =>
      have hslashless : rule.slashless = none := by rw [Rule.slashless, hslash]; rfl
      rw [Rule.patterns, hslashless]
      refine ⟨⟨nofun, fun hn => absurd hnew hn⟩, fun perMethod' he => ?_⟩
      cases he
      refine ⟨hlist', hplain₁, hlive₁ hlive, hparam₁.trans hparam, htable₁.trans ?_⟩
      rw [tableOf_concat, Rule.entries, hslashless, hlength]
      exact (List.perm_append_singleton _ _).symm
    | some url =>
      obtain ⟨hpieces, hslashless⟩ := rule.pieces_withoutTrailingSlash hslash
      have hv : ∀ piece ∈ rule.pattern.dropLast, piece.Visible := fun piece hpiece =>
        rule.visible piece (List.mem_of_mem_dropLast hpiece)
      obtain ⟨hthrows₁, hadds₁⟩ := Trie.add_spec hplain₁ htable₁ hpieces hv (show redirectSlash ≠ 0 by decide)
      have hpatterns : Table.patterns ((rule.pattern, perMethod.rules.length) :: tableOf rules) =
          rule.pattern :: old := by
        rw [← hold, ← patterns_tableOf]
        rfl
      have htwo : (old ++ rule.patterns).Nodup ↔ rule.pattern.dropLast ∉ rule.pattern :: old := by
        rw [Rule.patterns, hslashless, Option.toList_some, List.append_cons, ← List.concat_eq_append, List.nodup_concat,
          (List.perm_append_singleton rule.pattern old).mem_iff]
        exact and_iff_left hnew
      rw [hpatterns] at hthrows₁
      dsimp only
      refine ⟨by rw [Option.map_eq_none_iff, hthrows₁, htwo, not_not], fun perMethod' he => ?_⟩
      obtain ⟨trie', hadd', rfl⟩ := Option.map_eq_some_iff.1 he
      obtain ⟨hplain₂, hlive₂, hparam₂, htable₂⟩ := hadds₁ trie' hadd'
      refine ⟨hlist', hplain₂, hlive₂ (hlive₁ hlive), hparam₂.trans (hparam₁.trans hparam), htable₂.trans ?_⟩
      rw [tableOf_concat, Rule.entries, hslashless, hlength]
      exact (List.perm_append_comm.trans (List.Perm.swap _ _ _)).symm

/-! ### The whole router -/

theorem filter_concat (rules : List (Rule H)) (rule : Rule H) (method : HTTPMethod) :
    (rules ++ [rule]).filter (·.allows method) =
      rules.filter (·.allows method) ++ if rule.allows method then [rule] else [] := by
  rw [List.filter_append, List.filter_singleton]
  split <;> simp_all

theorem patternsFor_append (rules : List (Rule H)) (rule : Rule H) (method : HTTPMethod) :
    patternsFor (rules ++ [rule]) method =
      patternsFor rules method ++ if rule.allows method then rule.patterns else [] := by
  unfold patternsFor
  rw [filter_concat, List.flatMap_append]
  split <;> simp

namespace Router

/-- Each method has its rules. -/
def Holds (router : Router H) (rules : List (Rule H)) : Prop :=
  ∀ method, (router method).Holds (rules.filter (·.allows method))

/-- No pattern occurs twice for a method. -/
def Distinct (rules : List (Rule H)) : Prop := ∀ method, (patternsFor rules method).Nodup

/-- The indices of the rules of every method are numbers of 16 bits: the first two are taken. -/
def Fits (rules : List (Rule H)) : Prop := ∀ method, (rules.filter (·.allows method)).length + 2 ≤ 2 ^ 16

theorem fits_of_length_le {rules : List (Rule H)} (h : rules.length + 2 ≤ 2 ^ 16) : Fits rules := fun _ =>
  Nat.le_trans (Nat.add_le_add_right (List.length_filter_le ..) 2) h

theorem Fits.of_append {rules rules' : List (Rule H)} (h : Fits (rules ++ rules')) : Fits rules := by
  intro method
  have hle := h method
  rw [List.filter_append, List.length_append] at hle
  omega

/-- There is an index left for the rule. -/
theorem Fits.index_lt {rules : List (Rule H)} {rule : Rule H} (h : Fits (rules ++ [rule])) {method : HTTPMethod}
    (hallows : rule.allows method = true) : (rules.filter (·.allows method)).length + 2 < 2 ^ 16 := by
  have hle := h method
  rw [filter_concat, if_pos hallows, List.length_append, List.length_singleton] at hle
  omega

theorem addRuleObject_spec {router : Router H} {rules : List (Rule H)} (h : router.Holds rules)
    (hdistinct : Distinct rules) {rule : Rule H} (hfits : Fits (rules ++ [rule])) :
    (router.addRuleObject rule = none ↔ ¬ Distinct (rules ++ [rule])) ∧
      ∀ router', router.addRuleObject rule = some router' → router'.Holds (rules ++ [rule]) := by
  have hnodup := HTTPMethod.nodup_all.filter rule.allows
  have hmem : ∀ method, method ∈ HTTPMethod.all.filter rule.allows ↔ rule.allows method = true := fun method => by
    rw [List.mem_filter]
    exact and_iff_right method.mem_all
  refine ⟨?_, fun router' he method => ?_⟩
  · rw [addRuleObject, forMethods_eq_none_iff hnodup]
    unfold Distinct
    push Not
    refine exists_congr fun method => ?_
    rw [hmem, patternsFor_append]
    by_cases hallows : rule.allows method = true
    · have hthrows := (PerMethod.addRule_spec (h method) (hdistinct method) (hfits.index_lt hallows) rule).1
      rw [if_pos hallows, hthrows, List.flatMap_append, List.flatMap_singleton]
      exact and_iff_right hallows
    · rw [if_neg hallows, List.append_nil]
      exact ⟨fun h => absurd h.1 hallows, fun h => absurd (hdistinct method) h⟩
  · obtain ⟨hin, hout⟩ := forMethods_eq_some hnodup he method
    rw [hmem] at hin hout
    rw [filter_concat]
    by_cases hallows : rule.allows method = true
    · rw [if_pos hallows]
      exact (PerMethod.addRule_spec (h method) (hdistinct method) (hfits.index_lt hallows) rule).2 _ (hin hallows)
    · rw [if_neg hallows, List.append_nil, hout hallows]
      exact h method

theorem Distinct.of_append {rules rules' : List (Rule H)} (h : Distinct (rules ++ rules')) : Distinct rules := by
  intro method
  have hnodup := h method
  unfold patternsFor at hnodup
  rw [List.filter_append, List.flatMap_append] at hnodup
  exact hnodup.of_append_left

/-- All rules put in. -/
theorem addRules_spec {rules : List (Rule H)} (hfits : Fits rules) :
    (rules.foldlM addRuleObject start = none ↔ ¬ Distinct rules) ∧
      ∀ router, rules.foldlM addRuleObject start = some router → router.Holds rules := by
  induction rules using List.reverseRecOn with
  | nil =>
    refine ⟨⟨nofun, fun h => absurd (fun _ => List.nodup_nil) h⟩, fun router he => ?_⟩
    cases he
    exact fun _ => PerMethod.holds_start
  | append_singleton rules rule ih =>
    obtain ⟨hnone, hsome⟩ := ih hfits.of_append
    rw [List.foldlM_append]
    cases hrouter : rules.foldlM addRuleObject start with
    | none =>
      refine ⟨⟨fun _ hdistinct => hnone.1 hrouter hdistinct.of_append, fun _ => rfl⟩, nofun⟩
    | some router =>
      have hdistinct : Distinct rules := by
        by_contra h
        rw [hnone.2 h] at hrouter
        cases hrouter
      have hlast : [rule].foldlM addRuleObject router = router.addRuleObject rule := by
        cases he : router.addRuleObject rule <;> simp [he]
      show ([rule].foldlM addRuleObject router = none ↔ _) ∧
        ∀ router', [rule].foldlM addRuleObject router = some router' → _
      rw [hlast]
      exact addRuleObject_spec (hsome router hrouter) hdistinct hfits

end Router

/-- The patterns of a method are those of its tree. -/
theorem PerMethod.Holds.mem_patterns {perMethod : PerMethod H} {rules : List (Rule H)} (h : perMethod.Holds rules)
    (pattern : Pattern) : pattern ∈ perMethod.trie.head.rules.patterns ↔ pattern ∈ rules.flatMap Rule.patterns := by
  rw [Table.Perm.mem_patterns h.table, patterns_tableOf]

/-- The head is simple when all patterns begin with the same character. -/
theorem PerMethod.Holds.isSimpleNode_iff {perMethod : PerMethod H} {rules : List (Rule H)} (h : perMethod.Holds rules) :
    perMethod.trie.head.isSimpleNode = true ↔ OneHead (rules.flatMap Rule.patterns) := by
  have hpatterns := h.mem_patterns
  obtain ⟨-, hplain, hlive, hparam, -⟩ := h
  unfold Node.Live at hlive
  generalize perMethod.trie.head = head at hpatterns hplain hlive hparam
  obtain ⟨ruleIndex, key, param, children⟩ := head
  obtain ⟨hlabels, hnodup, -⟩ := hplain
  dsimp only at hparam hlive
  simp only [Node.mem_patterns] at hpatterns
  simp only [Node.isSimpleNode, Bool.and_eq_true, decide_eq_true_eq, List.all_eq_true]
  constructor
  · rintro ⟨⟨⟨hi, hlength⟩, -⟩, hparams⟩
    cases children with
    | nil =>
      refine ⟨0, fun pattern hmem => ?_⟩
      rcases (hpatterns pattern).2 hmem with ⟨-, hne⟩ | ⟨child, hc, -⟩
      · exact absurd hi hne
      · cases hc
    | cons child children =>
      obtain rfl : children = [] := List.length_eq_zero_iff.1 (by rw [List.length_cons] at hlength; omega)
      obtain ⟨piece, hpiece⟩ := hlabels child List.mem_cons_self
      have hnone := hpiece.2.symm.trans (hparams child List.mem_cons_self)
      cases piece with
      | param type => cases hnone
      | char c =>
        refine ⟨c, fun pattern hmem => ?_⟩
        rcases (hpatterns pattern).2 hmem with ⟨-, hne⟩ | ⟨child', hc, q, -, rfl⟩
        · exact absurd hi hne
        · obtain rfl := List.mem_singleton.1 hc
          exact ⟨q, by rw [hpiece.label]; rfl⟩
  · rintro ⟨c, hhead⟩
    have hall : ∀ child ∈ children, child.label = [.char c] ∧ child.param = none := by
      intro child hc
      obtain ⟨piece, hpiece⟩ := hlabels child hc
      obtain ⟨rule, hrule⟩ := List.exists_mem_of_ne_nil _ (hlive child hc)
      obtain ⟨q, hq⟩ := hhead _ ((hpatterns _).1
        (Or.inr ⟨child, hc, rule.1, List.mem_map_of_mem hrule, rfl⟩))
      rw [hpiece.label] at hq
      obtain ⟨rfl, -⟩ := List.cons.inj hq
      exact ⟨hpiece.label, hpiece.2⟩
    refine ⟨⟨⟨?_, ?_⟩, hparam⟩, fun child hc => (hall child hc).2⟩
    · by_contra hne
      obtain ⟨q, hq⟩ := hhead [] ((hpatterns []).1 (Or.inl ⟨rfl, hne⟩))
      cases hq
    · -- no two children have the same label
      cases children with
      | nil => exact Nat.zero_lt_two
      | cons child children =>
        cases children with
        | nil => exact Nat.one_lt_two
        | cons child' children =>
          rw [List.map_cons, List.map_cons, (hall child List.mem_cons_self).1,
            (hall child' (List.mem_cons_of_mem _ List.mem_cons_self)).1] at hnodup
          exact absurd List.mem_cons_self (List.nodup_cons.1 hnodup).1

/-! ### `find` and the search through the rules -/

theorem mem_tableOf {rules : List (Rule H)} {entry : Pattern × Nat} :
    entry ∈ tableOf rules ↔ ∃ (k : Nat) (rule : Rule H), rules[k]? = some rule ∧ entry ∈ rule.entries (k + 2) := by
  simp only [tableOf, List.mem_flatMap, Prod.exists, List.mk_mem_zipIdx_iff_le_and_getElem?_sub]
  constructor
  · rintro ⟨rule, index, ⟨hle, hget⟩, hentry⟩
    exact ⟨index - 2, rule, hget, by rwa [Nat.sub_add_cancel hle]⟩
  · rintro ⟨k, rule, hget, hentry⟩
    exact ⟨rule, k + 2, ⟨Nat.le_add_left _ _, by rwa [Nat.add_sub_cancel]⟩, hentry⟩

theorem Rule.mem_entries {rule : Rule H} {k : Nat} {entry : Pattern × Nat} :
    entry ∈ rule.entries k ↔ entry = (rule.pattern, k) ∨ entry.2 = redirectSlash ∧ rule.slashless = some entry.1 := by
  obtain ⟨pattern, index⟩ := entry
  simp only [entries, List.mem_cons, List.mem_map, Option.mem_toList, Prod.mk.injEq]
  refine or_congr Iff.rfl ⟨?_, ?_⟩
  · rintro ⟨p, hp, rfl, rfl⟩
    exact ⟨rfl, hp⟩
  · rintro ⟨rfl, hp⟩
    exact ⟨pattern, hp, rfl, rfl⟩

/-- The rules say of a URL what was found in the tree. -/
def Lookup.Agrees (perMethod : PerMethod H) (found : Found) (result : Lookup H) : Prop :=
  match result with
  | .none => found.1 = 0
  | .redirect => found.1 = redirectSlash
  | .rule first params =>
    redirectSlash < found.1 ∧ perMethod.rules[found.1]? = some (some first) ∧ found.2 = params

theorem Rule.redirects_iff [Strtod] {rule : Rule H} {url : Bytes} :
    rule.redirects url = true ↔ ∃ pattern, rule.slashless = some pattern ∧ matched pattern ({}, url) ≠ none := by
  rw [redirects, Option.any_eq_true]
  simp only [Option.isSome_iff_ne_none]

/-- The least index is that of a redirect, or else that of the first rule that matches. -/
theorem scan_agrees [Strtod] {perMethod : PerMethod H} {rules : List (Rule H)} {url : Bytes} {found : Found}
    (hlist : perMethod.rules = none :: none :: rules.map some) (h : (tableOf rules).Least url found) :
    (scan rules url).Agrees perMethod found := by
  obtain ⟨hunmatched, hrule, hle⟩ := h
  unfold scan
  by_cases hredirect : rules.any (·.redirects url) = true
  · rw [if_pos hredirect]
    obtain ⟨rule, hmem, hrule⟩ := List.any_eq_true.1 hredirect
    obtain ⟨pattern, hslashless, hmatched⟩ := Rule.redirects_iff.1 hrule
    obtain ⟨k, hk⟩ := List.mem_iff_getElem?.1 hmem
    have hentry : (pattern, redirectSlash) ∈ tableOf rules :=
      mem_tableOf.2 ⟨k, rule, hk, Rule.mem_entries.2 (Or.inr ⟨rfl, hslashless⟩)⟩
    have hone : found.1 ≤ 1 := hle _ hentry hmatched
    have hne : found.1 ≠ 0 := fun hzero => hmatched (hunmatched.1 hzero _ hentry)
    show found.1 = 1
    omega
  · rw [if_neg hredirect]
    -- what is found is then a rule of the list
    have hlisted : found.1 ≠ 0 → ∃ k rule, rules[k]? = some rule ∧ found.1 = k + 2 ∧
        matched rule.pattern ({}, url) = some found.2 := by
      intro hne
      obtain ⟨entry, hentry, hindex, hmatched⟩ := hrule hne
      obtain ⟨k, rule, hk, hentry⟩ := mem_tableOf.1 hentry
      rcases Rule.mem_entries.1 hentry with rfl | ⟨-, hslashless⟩
      · exact ⟨k, rule, hk, hindex.symm, hmatched⟩
      · refine absurd (List.any_eq_true.2 ⟨rule, List.mem_of_getElem? hk, ?_⟩) hredirect
        exact Rule.redirects_iff.2 ⟨entry.1, hslashless, by rw [hmatched]; nofun⟩
    cases hfirst : rules.findSome? fun rule => (matched rule.pattern ({}, url)).map (rule, ·) with
    | none =>
      show found.1 = 0
      by_contra hne
      obtain ⟨k, rule, hk, -, hmatched⟩ := hlisted hne
      have hnone := List.findSome?_eq_none_iff.1 hfirst rule (List.mem_of_getElem? hk)
      rw [hmatched] at hnone
      cases hnone
    | some first =>
      obtain ⟨rule, params⟩ := first
      obtain ⟨before, first, after, rfl, hfirst, hbefore⟩ := List.findSome?_eq_some_iff.1 hfirst
      obtain ⟨params', hmatched, he⟩ := Option.map_eq_some_iff.1 hfirst
      cases he
      have hget : (before ++ rule :: after)[before.length]? = some rule := by simp
      have hentry : (rule.pattern, before.length + 2) ∈ tableOf (before ++ rule :: after) :=
        mem_tableOf.2 ⟨_, rule, hget, Rule.mem_entries.2 (Or.inl rfl)⟩
      have hmatches : matched rule.pattern ({}, url) ≠ none := by rw [hmatched]; nofun
      have hindex : found.1 ≤ before.length + 2 := hle _ hentry hmatches
      have hne : found.1 ≠ 0 := fun hzero => hmatches (hunmatched.1 hzero _ hentry)
      obtain ⟨k, rule', hk, hfound, hmatched'⟩ := hlisted hne
      have hlast : k = before.length := by
        by_contra hk'
        have hlt : k < before.length := by omega
        rw [List.getElem?_append_left hlt] at hk
        have hnone := hbefore rule' (List.mem_of_getElem? hk)
        rw [hmatched'] at hnone
        cases hnone
      subst hlast
      rw [hget] at hk
      cases hk
      rw [hmatched] at hmatched'
      refine ⟨?_, ?_, (Option.some.inj hmatched').symm⟩
      · rw [hfound]
        exact Nat.lt_of_lt_of_le (by decide) (Nat.le_add_left 2 _)
      · rw [hlist, hfound]
        simp

/-! ### `validate` and `handle` -/

/-- The method has these rules, in an optimized tree. -/
structure PerMethod.Validated (perMethod : PerMethod H) (rules : List (Rule H)) : Prop where
  list : perMethod.rules = none :: none :: rules.map some
  proper : perMethod.trie.head.Proper
  table : perMethod.trie.head.rules.Perm (tableOf rules)
  isEmpty : perMethod.trie.isEmpty = rules.isEmpty

theorem PerMethod.Holds.children_eq_nil_iff {perMethod : PerMethod H} {rules : List (Rule H)}
    (h : perMethod.Holds rules) (hhead : OneHead (rules.flatMap Rule.patterns)) :
    perMethod.trie.head.children = [] ↔ rules = [] := by
  obtain ⟨c, hhead⟩ := hhead
  constructor
  · intro hchildren
    cases rules with
    | nil => rfl
    | cons rule rules =>
      have hmem : rule.pattern ∈ (rule :: rules).flatMap Rule.patterns :=
        List.mem_flatMap.2 ⟨rule, List.mem_cons_self, List.mem_cons_self⟩
      obtain ⟨q, hq⟩ := hhead _ hmem
      have hnode := (h.mem_patterns _).2 hmem
      generalize perMethod.trie.head = head at hnode hchildren
      obtain ⟨ruleIndex, key, param, children⟩ := head
      obtain rfl : children = [] := hchildren
      rcases Node.mem_patterns.1 hnode with ⟨hnil, -⟩ | ⟨child, hc, -⟩
      · rw [hq] at hnil
        cases hnil
      · cases hc
  · rintro rfl
    rw [List.eq_nil_iff_forall_not_mem]
    intro child hc
    have hempty : perMethod.trie.head.rules = [] := List.Perm.eq_nil h.table
    have hlive := h.live child hc
    generalize perMethod.trie.head = head at hempty hc
    obtain ⟨ruleIndex, key, param, children⟩ := head
    obtain ⟨before, after, hsplit⟩ := List.append_of_mem hc
    dsimp only at hsplit
    rw [Node.rules_eq, hsplit, rulesBelow_append, rulesBelow_cons] at hempty
    simp [Table.under, hlive] at hempty

theorem PerMethod.validate_spec {perMethod : PerMethod H} {rules : List (Rule H)} (h : perMethod.Holds rules) :
    (perMethod.validate = none ↔ ¬ OneHead (rules.flatMap Rule.patterns)) ∧
      ∀ perMethod', perMethod.validate = some perMethod' → perMethod'.Validated rules := by
  unfold validate Trie.validate
  rw [← h.isSimpleNode_iff]
  by_cases hsimple : perMethod.trie.head.isSimpleNode = true
  · rw [if_pos hsimple]
    refine ⟨⟨nofun, fun hn => absurd hsimple hn⟩, fun perMethod' he => ?_⟩
    cases he
    refine ⟨h.list, Trie.proper_optimize h.plain.proper, ?_, ?_⟩
    · rw [Trie.rules_optimize]
      exact h.table
    · have hchildren := h.children_eq_nil_iff (h.isSimpleNode_iff.1 hsimple)
      rw [Bool.eq_iff_iff, Trie.isEmpty, Trie.optimize, List.isEmpty_iff, List.isEmpty_iff, ← hchildren]
      exact List.map_eq_nil_iff
  · rw [if_neg hsimple]
    exact ⟨⟨fun _ => hsimple, fun _ => rfl⟩, nofun⟩

namespace Router

theorem validate_spec {rules : List (Rule H)} (hfits : Fits rules) :
    (validate rules = none ↔ ¬ (Distinct rules ∧ ∀ method, OneHead (patternsFor rules method))) ∧
      ∀ router, validate rules = some router →
        ∀ method, (router method).Validated (rules.filter (·.allows method)) := by
  obtain ⟨hnone, hsome⟩ := addRules_spec hfits
  have hbind : validate rules = (rules.foldlM addRuleObject start).bind fun router =>
      router.forMethods HTTPMethod.all PerMethod.validate := rfl
  rw [hbind]
  cases hrouter : rules.foldlM addRuleObject start with
  | none => exact ⟨⟨fun _ h => hnone.1 hrouter h.1, fun _ => rfl⟩, nofun⟩
  | some router =>
    have hdistinct : Distinct rules := by
      by_contra h
      rw [hnone.2 h] at hrouter
      cases hrouter
    have hholds := hsome router hrouter
    rw [Option.bind_some]
    refine ⟨?_, fun router' he method => ?_⟩
    · rw [forMethods_eq_none_iff HTTPMethod.nodup_all, and_iff_right hdistinct]
      push Not
      refine exists_congr fun method => ?_
      rw [(PerMethod.validate_spec (hholds method)).1]
      exact and_iff_right method.mem_all
    · have hmethod := (forMethods_eq_some HTTPMethod.nodup_all he method).1 method.mem_all
      exact (PerMethod.validate_spec (hholds method)).2 _ hmethod

/-- What is found for a method is what the rules say. -/
theorem found_agrees [Strtod] {router : Router H} {rules : List (Rule H)} (hfits : Fits rules)
    (h : validate rules = some router) (url : Bytes) (method : HTTPMethod) :
    (lookup rules url method).Agrees (router method) ((router method).trie.find url) := by
  obtain ⟨hlist, hproper, htable, -⟩ := (validate_spec hfits).2 router h method
  exact scan_agrees hlist ((Trie.find_least hproper url).perm htable)

theorem finds_eq [Strtod] {router : Router H} {rules : List (Rule H)} (hfits : Fits rules)
    (h : validate rules = some router) (url : Bytes) :
    router.finds url = fun method => !(lookup rules url method).isNone := by
  funext method
  have hfound := found_agrees hfits h url method
  unfold finds
  cases hl : lookup rules url method with
  | none =>
    rw [hl] at hfound
    simp [show ((router method).trie.find url).1 = 0 from hfound, Lookup.isNone]
  | redirect =>
    rw [hl] at hfound
    simp [show ((router method).trie.find url).1 = redirectSlash from hfound, Lookup.isNone, redirectSlash]
  | rule first params =>
    rw [hl] at hfound
    have hlt := hfound.1
    simp only [Lookup.isNone, Bool.not_false, decide_eq_true_eq]
    omega

theorem validate_isSome_iff {rules : List (Rule H)} (hfits : Fits rules) :
    (validate rules).isSome ↔ Distinct rules ∧ ∀ method, OneHead (patternsFor rules method) := by
  rw [Option.isSome_iff_ne_none, Ne, (validate_spec hfits).1, not_not]

theorem handle_eq_reaction [Strtod] {rules : List (Rule H)} (hfits : Fits rules) {router : Router H}
    (h : validate rules = some router) (method : HTTPMethod) (url : Bytes) :
    router.handle method url = reaction rules method url := by
  have hsome := (validate_spec hfits).2
  have hfinds := finds_eq hfits h url
  have hempty : (HTTPMethod.all.filter fun method => !(router method).trie.isEmpty) =
      HTTPMethod.all.filter fun method => rules.any (·.allows method) := by
    refine List.filter_congr fun m _ => ?_
    rw [(hsome router h m).isEmpty]
    rw [Bool.eq_iff_iff]
    simp
  have hserving : HTTPMethod.all.any (router.finds url) = true ↔ HTTPMethod.all.filter (router.finds url) ≠ [] := by
    rw [List.any_eq_true, Ne, List.filter_eq_nil_iff]
    push Not
    exact Iff.rfl
  unfold handle reaction
  dsimp only
  rw [← hfinds, hempty]
  by_cases hoptions : method = .options
  · rw [if_pos hoptions, if_pos hoptions]
    by_cases hurl : url = ascii "/*"
    · rw [if_pos hurl, if_pos hurl]
    · rw [if_neg hurl, if_neg hurl]
      by_cases hany : HTTPMethod.all.any (router.finds url) = true
      · rw [if_pos hany, if_neg (hserving.1 hany)]
      · rw [if_neg hany, if_pos (not_not.1 fun hne => hany (hserving.2 hne))]
  · rw [if_neg hoptions, if_neg hoptions]
    generalize (if method = .head then .get else method : HTTPMethod) = methodActual
    have hfound := found_agrees hfits h url methodActual
    have hlist := (hsome router h methodActual).list
    cases hl : lookup rules url methodActual with
    | none =>
      rw [hl] at hfound
      have hzero : ((router methodActual).trie.find url).1 = 0 := hfound
      rw [if_pos hzero]
      dsimp only
      by_cases hany : HTTPMethod.all.any (router.finds url) = true
      · rw [if_pos hany, if_neg (hserving.1 hany)]
      · rw [if_neg hany, if_pos (not_not.1 fun hne => hany (hserving.2 hne))]
    | redirect =>
      rw [hl] at hfound
      have hone : ((router methodActual).trie.find url).1 = redirectSlash := hfound
      have hlength : ¬ (router methodActual).rules.length ≤ redirectSlash := by
        rw [hlist]
        exact Nat.not_le.2 (Nat.succ_lt_succ (Nat.succ_pos _))
      rw [hone, if_neg (by decide), if_neg hlength, if_pos rfl]
    | rule first params =>
      rw [hl] at hfound
      obtain ⟨hlt, hget, rfl⟩ := hfound
      have hne : ((router methodActual).trie.find url).1 ≠ 0 := by omega
      have hlength := (List.getElem?_eq_some_iff.1 hget).1
      rw [if_neg hne, if_neg (Nat.not_le.2 hlength), if_neg (Nat.ne_of_gt hlt), hget]

/-- For every list of rules whose indices fit: `validate` succeeds if and only if no pattern occurs twice for a method
and the patterns of each method begin with the same character; and then every request is answered as by a search through
the rules, in which a redirect comes first and then the first rule that matches. -/
theorem validate_correct [Strtod] {rules : List (Rule H)} (hfits : Fits rules) :
    ((validate rules).isSome ↔ Distinct rules ∧ ∀ method, OneHead (patternsFor rules method)) ∧
      ∀ router, validate rules = some router → ∀ method url, router.handle method url = reaction rules method url :=
  ⟨validate_isSome_iff hfits, fun _ h => handle_eq_reaction hfits h⟩

/-- The patterns begin with the same character if those of all rules do. -/
theorem oneHead_of_forall {rules : List (Rule H)} {c : UInt8}
    (h : ∀ rule ∈ rules, ∀ pattern ∈ rule.patterns, pattern.head? = some (.char c)) (method : HTTPMethod) :
    OneHead (patternsFor rules method) := by
  refine ⟨c, fun pattern hpattern => ?_⟩
  obtain ⟨rule, hrule, hpattern⟩ := List.mem_flatMap.1 hpattern
  have hhead := h rule (List.mem_of_mem_filter hrule) pattern hpattern
  cases pattern with
  | nil => cases hhead
  | cons piece q =>
    cases hhead
    exact ⟨q, rfl⟩

section Runs

attribute [local instance] Strtod.none

private def letterRules : List (Rule Nat) :=
  [⟨ascii "/<string>", HTTPMethod.get.bit, 0, [.char 47, .param .string], by decide, by decide⟩,
    ⟨ascii "/a", HTTPMethod.get.bit, 1, [.char 47, .char 97], by decide, by decide⟩]

/-- Of two rules that match, the first one counts. -/
theorem first_rule_counts : ∃ router rule, validate letterRules = some router ∧
    router.handle .get (ascii "/a") = .handler rule { stringParams := [ascii "a"] } ∧ rule.handler = 0 := by
  have hfits : Fits letterRules := fits_of_length_le (by decide)
  obtain ⟨hiff, hhandle⟩ := validate_correct hfits
  have hdistinct : Distinct letterRules := fun method => by cases method <;> decide
  obtain ⟨router, hrouter⟩ := Option.isSome_iff_exists.1 (hiff.2 ⟨hdistinct, oneHead_of_forall (c := 47) (by decide)⟩)
  refine ⟨router, _, hrouter, (hhandle router hrouter _ _).trans rfl, rfl⟩

end Runs

end Router

end Router

end Crow

end KeyValueServer
