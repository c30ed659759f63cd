import KeyValueServer.Crow.Trie

/-!
# The router

The router has a search tree and a list of rules for each method.  `validate` puts the rules in, in the order in which
they were registered, and a rule for a directory, whose URL ends with a slash, also without the slash, for a redirect.
`handle` looks for the URL of a request in the tree of its method.

Rules that have no handler, are upgraded to websockets or belong to a blueprint are left out, and so is the catch-all
rule.
-/

namespace KeyValueServer

namespace Crow

/-! ### Methods -/

inductive HTTPMethod
  | delete
  | get
  | head
  | post
  | put
  | connect
  | options
  | trace
  | patch
  | purge
  | copy
  | lock
  | mkCol
  | move
  | propfind
  | proppatch
  | search
  | unlock
  | bind
  | rebind
  | unbind
  | acl
  | report
  | mkActivity
  | checkout
  | merge
  | mSearch
  | notify
  | subscribe
  | unsubscribe
  | mkCalendar
  | link
  | unlink
  | source
  deriving DecidableEq

namespace HTTPMethod

/-- The methods in the order of their numbers. -/
def all : List HTTPMethod :=
  [delete, get, head, post, put, connect, options, trace, patch, purge, copy, lock, mkCol, move, propfind, proppatch,
    search, unlock, bind, rebind, unbind, acl, report, mkActivity, checkout, merge, mSearch, notify, subscribe,
    unsubscribe, mkCalendar, link, unlink, source]

/-- `method_name`. -/
def name : HTTPMethod → Bytes
  | delete => ascii "DELETE"
  | get => ascii "GET"
  | head => ascii "HEAD"
  | post => ascii "POST"
  | put => ascii "PUT"
  | connect => ascii "CONNECT"
  | options => ascii "OPTIONS"
  | trace => ascii "TRACE"
  | patch => ascii "PATCH"
  | purge => ascii "PURGE"
  | copy => ascii "COPY"
  | lock => ascii "LOCK"
  | mkCol => ascii "MKCOL"
  | move => ascii "MOVE"
  | propfind => ascii "PROPFIND"
  | proppatch => ascii "PROPPATCH"
  | search => ascii "SEARCH"
  | unlock => ascii "UNLOCK"
  | bind => ascii "BIND"
  | rebind => ascii "REBIND"
  | unbind => ascii "UNBIND"
  | acl => ascii "ACL"
  | report => ascii "REPORT"
  | mkActivity => ascii "MKACTIVITY"
  | checkout => ascii "CHECKOUT"
  | merge => ascii "MERGE"
  | mSearch => ascii "M-SEARCH"
  | notify => ascii "NOTIFY"
  | subscribe => ascii "SUBSCRIBE"
  | unsubscribe => ascii "UNSUBSCRIBE"
  | mkCalendar => ascii "MKCALENDAR"
  | link => ascii "LINK"
  | unlink => ascii "UNLINK"
  | source => ascii "SOURCE"

/-- The bit of the method in `methods_`, of 32 bits. -/
def bit (method : HTTPMethod) : BitVec 32 := 1#32 <<< method.ctorIdx

theorem mem_all (method : HTTPMethod) : method ∈ all := by
  cases method <;> decide

theorem nodup_all : all.Nodup := by
  decide

end HTTPMethod

/-! ### Rules -/

/-- A `TaggedRule` with its handler.  The tags were parsed when the program was compiled (`get_parameter_tag`), and the
URL is a C string. -/
structure Rule (H : Type) where
  url : Bytes
  methods : BitVec 32
  handler : H
  pattern : Pattern
  tagged : pieces 0 url = some pattern
  noNul : 0 ∉ url

namespace Rule

variable {H : Type}

/-- What `foreach_method` tests. -/
def allows (rule : Rule H) (method : HTTPMethod) : Bool := rule.methods.getLsbD method.ctorIdx

end Rule

def withoutTrailingSlash (url : Bytes) : Option Bytes :=
  if 1 < url.length ∧ url.getLast? = some 47 then some url.dropLast else none

/-- `RULE_SPECIAL_REDIRECT_SLASH`. -/
def redirectSlash : Nat := 1

/-- The first two rules are null. -/
structure PerMethod (H : Type) where
  rules : List (Option (Rule H))
  trie : Trie

abbrev Router (H : Type) := HTTPMethod → PerMethod H

section Router

variable {H : Type}

def PerMethod.start : PerMethod H := ⟨[none, none], .empty⟩

def PerMethod.addRule (rule : Rule H) (perMethod : PerMethod H) : Option (PerMethod H) := do
  let rules := perMethod.rules ++ [some rule]
  -- the index is passed as a `uint16_t`
  let trie ← perMethod.trie.add rule.url ((rules.length - 1) % 2 ^ 16)
  match withoutTrailingSlash rule.url with
  | none => return ⟨rules, trie⟩
  | some url =>
    let trie ← trie.add url redirectSlash
    return ⟨rules, trie⟩

def PerMethod.validate (perMethod : PerMethod H) : Option (PerMethod H) :=
  perMethod.trie.validate.map fun trie => { perMethod with trie }

namespace Router

/-- The loops over the methods. -/
def forMethods (methods : List HTTPMethod) (f : PerMethod H → Option (PerMethod H)) (router : Router H) :
    Option (Router H) :=
  methods.foldlM (fun router method => (f (router method)).map (Function.update router method)) router

/-- `internal_add_rule_object`. -/
def addRuleObject (router : Router H) (rule : Rule H) : Option (Router H) :=
  router.forMethods (HTTPMethod.all.filter rule.allows) (PerMethod.addRule rule)

def start : Router H := fun _ => .start

/-- `validate`, with the rules in `all_rules_`; it may throw. -/
def validate (rules : List (Rule H)) : Option (Router H) := do
  let router ← rules.foldlM addRuleObject start
  router.forMethods HTTPMethod.all PerMethod.validate

end Router

/-- What `handle` does with a request: it calls the handler of a rule, or answers itself. -/
inductive Reaction (H : Type)
  | handler (rule : Rule H) (params : RoutingParams)
  | redirect
  | allow (methods : Bytes)
  | methodNotAllowed
  | notFound
  | corrupted

namespace Router

def finds [Strtod] (router : Router H) (url : Bytes) (method : HTTPMethod) : Bool :=
  ((router method).trie.find url).1 ≠ 0

/-- The `Allow` header: the methods with a comma after each, without the last comma. -/
def allowText (methods : List HTTPMethod) : Bytes :=
  let allow := methods.foldl (fun allow method => allow ++ method.name ++ ascii ", ") (ascii "OPTIONS, HEAD, ")
  allow.take (allow.length - 2)

def handle [Strtod] (router : Router H) (method : HTTPMethod) (url : Bytes) : Reaction H :=
  if method = .options then
    if url = ascii "/*" then .allow (allowText (HTTPMethod.all.filter fun method => !(router method).trie.isEmpty))
    else if HTTPMethod.all.any (router.finds url) then .allow (allowText (HTTPMethod.all.filter (router.finds url)))
    else .notFound
  else
    let methodActual := if method = .head then .get else method
    let found := (router methodActual).trie.find url
    if found.1 = 0 then if HTTPMethod.all.any (router.finds url) then .methodNotAllowed else .notFound
    else if (router methodActual).rules.length ≤ found.1 then .corrupted
    else if found.1 = redirectSlash then .redirect
    else
      match (router methodActual).rules[found.1]? with
      | some (some rule) => .handler rule found.2
      -- there is no null pointer behind the first two
      | _ => .corrupted

end Router

end Router

end Crow

end KeyValueServer
