import KeyValueServer.ServerThreads

/-!
# What clients see of each other

The linearization of the server, told in terms of the replies alone (`later_get_sees`).  When a request on a name was
answered 200 before a GET of the same name was received, then the GET finds the record; its counts have gone on from
those that were reported before; and a value that was posted is not lost: the GET reports it, or one that was posted
at the same time or later.
-/

namespace KeyValueServer

open Concurrency HttpServerHelpers

namespace HttpServer

/-- The request with this number and its reply are in the history. -/
def Answered (hist : List (Event Request Response)) (number : Nat) (req : Request) (reply : Response) : Prop :=
  Event.invoke number req ∈ hist ∧ Event.ret number reply ∈ hist

/-- The exchange that an order shows. -/
def exchange (x : Entry Request Response) : Exchange := ⟨x.op, x.res⟩

section Replies

variable {rj : RapidJson} {records : List (Bytes × Bytes)} {name : Bytes}

theorem exists_of_written {xs : List Exchange} {value : Bytes}
    (h : (writtenValues rj name xs).getLast? = some value) :
    ∃ x ∈ xs, x.writes name ∧ ∃ v, requestValue rj x.request.body = .ok v ∧ v.bytes = value := by
  have hmem : value ∈ writtenValues rj name xs := List.mem_of_getLast? h
  obtain ⟨x, hx, hv⟩ := List.mem_filterMap.1 hmem
  split at hv
  · rename_i hw
    refine ⟨x, hx, hw, ?_⟩
    cases hr : requestValue rj x.request.body with
    | error error => simp [hr, Except.toOption] at hv
    | ok v =>
      rw [hr] at hv
      exact ⟨v, rfl, Option.some.inj hv⟩
  · cases hv

theorem Known.append {xs ys : List Exchange} (h : Known records xs name) : Known records (xs ++ ys) name := by
  rcases h with h | ⟨x, hx, hw⟩
  · exact Or.inl h
  · exact Or.inr ⟨x, List.mem_append_left _ hx, hw⟩

variable [Allocator]

/-- A GET is answered 200 if and only if the record is known, and then it reports the record. -/
theorem get_of_served {xs : List Exchange} {e : DataEngine} (h : Served rj records xs e) {req : Request}
    (hn : req.name ≠ []) (hm : req.method = .get) :
    ((handle rj e req).1.code = 200 ↔ Known records xs req.name) ∧
      ((handle rj e req).1.code = 200 → ∃ value,
        (writtenValues rj req.name xs).getLast?.or (lastValue req.name records) = some value ∧
        (handle rj e req).1 = response rj .ok (recordBody req.name ⟨value,
          ⟨.ofNat (1 + xs.countP (·.reads req.name)), .ofNat (xs.countP (·.writes req.name))⟩⟩)) := by
  have hknown := h.view_eq_none_iff req.name
  have ho := handle_outcome rj e req
  generalize handle rj e req = result at ho ⊢
  cases ho with
  | unnamed hn' => exact absurd hn' hn
  | missing _ _ hv =>
    have hcode : ¬ (response rj .notFound (errorBody req.name (ascii "Item not found"))).code = 200 := by
      simp [response, Status.code]
    exact ⟨iff_of_false hcode (hknown.1 hv), fun hok => absurd hok hcode⟩
  | found value _ _ hv =>
    have hsome : ¬ e.view req.name = none := by
      rw [hv]
      exact Option.some_ne_none value
    refine ⟨iff_of_true rfl (not_not.1 fun hk => hsome (hknown.2 hk)), fun _ => ?_⟩
    obtain ⟨record, hlookup, rfl⟩ := Option.map_eq_some_iff.1 hv
    obtain ⟨hvalue, hwrites, hreads⟩ := (h.record req.name).found record hlookup
    refine ⟨record.value.value, hvalue.symm, ?_⟩
    rw [← h.length_writtenValues, ← hwrites, UInt64.ofNat_add, ← hreads, UInt64.add_comm]
    rfl
  | refused _ _ hm' => exact absurd (hm.symm.trans hm') (by decide)
  | accepted _ _ hm' => exact absurd (hm.symm.trans hm') (by decide)

/-- A POST that is answered 200 has a value. -/
theorem requestValue_of_ok {e : DataEngine} {req : Request} (hm : req.method = .post)
    (hok : (handle rj e req).1.code = 200) : ∃ v, requestValue rj req.body = .ok v := by
  have ho := handle_outcome rj e req
  generalize handle rj e req = result at ho hok
  cases ho with
  | accepted v _ _ hv => exact ⟨v, hv⟩
  | found _ _ hm' => exact absurd (hm.symm.trans hm') (by decide)
  | _ => simp [response, Status.code] at hok

/-- Each request of an order that is replayed is handled after the requests before it. -/
theorem Replay.served {e : DataEngine} {lin pre post : List (Entry Request Response)} {x : Entry Request Response}
    (h : Replay (Handles rj) (.load records) lin e) (he : lin = pre ++ x :: post) :
    ∃ e₁, Served rj records (pre.map exchange) e₁ ∧ x.res = (handle rj e₁ x.op).1 := by
  obtain ⟨e₁, e₂, hpre, hx⟩ := h.split he
  have hserved := HttpServer.served rj records (pre.map Entry.op)
  rw [Replay.serve hpre] at hserved
  exact ⟨e₁, hserved, (Prod.mk.inj hx).1.symm⟩

/-- Only a request with a name is answered 200. -/
theorem name_ne_nil_of_ok {e e' : DataEngine} {req : Request} {reply : Response} (h : Handles rj e req reply e')
    (hok : reply.code = 200) : req.name ≠ [] := by
  intro hname
  have hrefused : req.call rj = .error (response rj .badRequest (errorBody req.name emptyName)) := by
    rw [Request.call, if_pos hname]
  have hreply := (handle_of_refused hrefused e).symm.trans h
  rw [← (Prod.mk.inj hreply).1] at hok
  cases hok

/-! ### Two requests, one after the other -/

omit [Allocator] in
/-- The number of exchanges of a kind, up to a request and up to a later one. -/
private theorem countP_between (p : Exchange → Bool) (before between : List (Entry Request Response))
    (x : Entry Request Response) :
    ((before ++ x :: between).map exchange).countP p =
        (before.map exchange).countP p + (if p (exchange x) then 1 else 0) + (between.map exchange).countP p ∧
      (before.map exchange).countP p ≤ before.length ∧ (between.map exchange).countP p ≤ between.length := by
  refine ⟨?_, ?_, ?_⟩
  · rw [List.map_append, List.countP_append, List.map_cons, List.countP_cons]
    omega
  · simpa using List.countP_le_length (p := p) (l := before.map exchange)
  · simpa using List.countP_le_length (p := p) (l := between.map exchange)

variable {e : DataEngine} {lin before between after : List (Entry Request Response)} {x y : Entry Request Response}

/-- A record that was found is found again. -/
private theorem Replay.found_again (h : Replay (Handles rj) (.load records) lin e)
    (he : lin = before ++ x :: (between ++ y :: after)) (hok : x.res.code = 200) (hname : y.op.name = x.op.name)
    (hget : y.op.method = .get) :
    x.op.name ≠ [] ∧
      ∃ e₁ e₁', Served rj records (before.map exchange) e₁ ∧ x.res = (handle rj e₁ x.op).1 ∧
        Served rj records ((before ++ x :: between).map exchange) e₁' ∧ y.res = (handle rj e₁' y.op).1 ∧
        y.res.code = 200 := by
  have hnamed : x.op.name ≠ [] := by
    obtain ⟨e₁, e₂, -, hhandles⟩ := h.split he
    exact name_ne_nil_of_ok hhandles hok
  have hnamed' : y.op.name ≠ [] := by rwa [hname]
  have he' : lin = (before ++ x :: between) ++ y :: after := by simp [he]
  obtain ⟨e₁, hx, hxres⟩ := Replay.served h he
  obtain ⟨e₁', hy, hyres⟩ := Replay.served h he'
  refine ⟨hnamed, e₁, e₁', hx, hxres, hy, hyres, ?_⟩
  rw [hyres, (get_of_served hy hnamed' hget).1, List.map_append, hname]
  cases hm : x.op.method with
  | get =>
    rw [hxres] at hok
    exact ((get_of_served hx hnamed hm).1.1 hok).append
  | post =>
    refine Or.inr ⟨exchange x, List.mem_append_right _ List.mem_cons_self, ?_⟩
    simp [Exchange.writes, exchange, hm, hok]

/-- The counts go on. -/
private theorem Replay.counts (h : Replay (Handles rj) (.load records) lin e)
    (he : lin = before ++ x :: (between ++ y :: after)) (hok : x.res.code = 200) (hname : y.op.name = x.op.name)
    (hget : y.op.method = .get) (hm : x.op.method = .get) :
    ∃ value value' i j k l, x.res = response rj .ok (recordBody x.op.name ⟨value, ⟨.ofNat i, .ofNat k⟩⟩) ∧
      y.res = response rj .ok (recordBody x.op.name ⟨value', ⟨.ofNat j, .ofNat l⟩⟩) ∧
      i < j ∧ j ≤ lin.length ∧ k ≤ l ∧ l ≤ lin.length := by
  obtain ⟨hnamed, e₁, e₁', hx, hxres, hy, hyres, hfound⟩ := Replay.found_again h he hok hname hget
  obtain ⟨value, -, hreply⟩ := (get_of_served hx hnamed hm).2 (hxres ▸ hok)
  obtain ⟨value', -, hreply'⟩ := (get_of_served hy (by rwa [hname]) hget).2 (hyres ▸ hfound)
  rw [hname] at hreply'
  refine ⟨value, value', _, _, _, _, hxres.trans hreply, hyres.trans hreply', ?_⟩
  obtain ⟨hreads, hbefore, hbetween⟩ := countP_between (·.reads x.op.name) before between x
  obtain ⟨hwrites, hbefore', hbetween'⟩ := countP_between (·.writes x.op.name) before between x
  have hxreads : (exchange x).reads x.op.name = true := by simp [Exchange.reads, exchange, hm, hok]
  have hxwrites : (exchange x).writes x.op.name = false := by simp [Exchange.writes, exchange, hm]
  rw [hxreads, if_pos rfl] at hreads
  rw [hxwrites, if_neg Bool.false_ne_true] at hwrites
  have hlength : lin.length = before.length + between.length + after.length + 2 := by
    simp [he]
    omega
  omega

/-- A value that was posted is reported, or one that was posted later. -/
private theorem Replay.posted (h : Replay (Handles rj) (.load records) lin e)
    (he : lin = before ++ x :: (between ++ y :: after)) (hok : x.res.code = 200) (hname : y.op.name = x.op.name)
    (hget : y.op.method = .get) (hm : x.op.method = .post) :
    ∃ value stats, y.res = response rj .ok (recordBody x.op.name ⟨value, stats⟩) ∧
      ∃ z ∈ x :: between, ∃ v, z.op.method = .post ∧ z.op.name = x.op.name ∧
        requestValue rj z.op.body = .ok v ∧ v.bytes = value := by
  obtain ⟨hnamed, e₁, e₁', hx, hxres, hy, hyres, hfound⟩ := Replay.found_again h he hok hname hget
  obtain ⟨value, hvalue, hreply⟩ := (get_of_served hy (by rwa [hname]) hget).2 (hyres ▸ hfound)
  rw [hname] at hreply hvalue
  refine ⟨value, _, hyres.trans hreply, ?_⟩
  -- the POST has written, so the last value is not an earlier one
  have hmem : ∃ v, v ∈ writtenValues rj x.op.name ((x :: between).map exchange) := by
    obtain ⟨v, hv⟩ := requestValue_of_ok hm (hxres ▸ hok)
    have hwrites : (exchange x).writes x.op.name = true := by simp [Exchange.writes, exchange, hm, hok]
    refine ⟨v.bytes, List.mem_filterMap.2 ⟨exchange x, List.mem_cons_self, ?_⟩⟩
    rw [if_pos hwrites]
    simp [exchange, hv, Except.toOption]
  obtain ⟨last, hlast⟩ : ∃ last, (writtenValues rj x.op.name ((x :: between).map exchange)).getLast? = some last := by
    obtain ⟨v, hv⟩ := hmem
    exact ⟨_, List.getLast?_eq_some_getLast (List.ne_nil_of_mem hv)⟩
  rw [List.map_append, writtenValues, List.filterMap_append, ← writtenValues, ← writtenValues,
    List.getLast?_append, hlast] at hvalue
  obtain rfl : last = value := by simpa using hvalue
  obtain ⟨z, hz, hwrites, v, hv, hbytes⟩ := exists_of_written hlast
  obtain ⟨z, hzmem, rfl⟩ := List.mem_map.1 hz
  rw [Exchange.writes, Bool.and_eq_true, Bool.and_eq_true] at hwrites
  exact ⟨z, hzmem, v, of_decide_eq_true hwrites.1.1, of_decide_eq_true hwrites.1.2, hv, hbytes⟩

variable {T : Type} [DecidableEq T] [Fintype T]

/-- A GET that was received after a request on the same name had been answered 200 finds the record.  After a GET its
read count has gone up and its write count has not gone down (they are reported modulo 2^64, but never exceed the
number of the requests); after a POST it reports a value that was posted not earlier than that one. -/
theorem later_get_sees {file : Option Bytes} {ls : List (ServerLabel T)} {s : Server T}
    (h : Run (ServerStep rj) (.start T (.load records) file) ls s) {n n' : Nat} {req req' : Request}
    {reply reply' : Response} (ha : Answered (requestHistory ls) n req reply)
    (ha' : Answered (requestHistory ls) n' req' reply') (hp : Precedes (requestHistory ls) n n')
    (hname : req'.name = req.name) (hget : req'.method = .get) (hok : reply.code = 200) :
    reply'.code = 200 ∧
      (req.method = .get → ∃ value value' i j k l,
        reply = response rj .ok (recordBody req.name ⟨value, ⟨.ofNat i, .ofNat k⟩⟩) ∧
        reply' = response rj .ok (recordBody req.name ⟨value', ⟨.ofNat j, .ofNat l⟩⟩) ∧
        i < j ∧ j ≤ s.requests ∧ k ≤ l ∧ l ≤ s.requests) ∧
      (req.method = .post → ∃ value stats, reply' = response rj .ok (recordBody req.name ⟨value, stats⟩) ∧
        ∃ m other v, Event.invoke m other ∈ requestHistory ls ∧ other.method = .post ∧ other.name = req.name ∧
          requestValue rj other.body = .ok v ∧ v.bytes = value ∧
          ¬ Precedes (requestHistory ls) m n ∧ ¬ Precedes (requestHistory ls) n' m) := by
  obtain ⟨haccounts, lin, hlin⟩ := AtomicObject.exists_placed (Run.atomic h)
  change AtomicObject.Accounts (requestHistory ls) _ at haccounts
  change AtomicObject.Placed _ _ (requestHistory ls) _ _ at hlin
  have hlinearizes := hlin.linearizes
  have hx := hlinearizes.mem_of_returned (fun op' ho => haccounts.once n op' req ho ha.1) ha.2
  have hy := hlinearizes.mem_of_returned (fun op' ho => haccounts.once n' op' req' ho ha'.1) ha'.2
  have hnodup : lin.Nodup := hlinearizes.nodup.of_map _
  have hlength : lin.length ≤ s.requests := hlin.length_le haccounts
  obtain ⟨l₁, l₂, hsplit, hxl, hyl⟩ := hlinearizes.realTime _ hx _ hy hp
  obtain ⟨before, between₁, rfl⟩ := List.append_of_mem hxl
  obtain ⟨between₂, after, rfl⟩ := List.append_of_mem hyl
  have he : lin = before ++ ⟨n, req, reply⟩ :: ((between₁ ++ between₂) ++ ⟨n', req', reply'⟩ :: after) := by
    simp [hsplit]
  refine ⟨?_, fun hm => ?_, fun hm => ?_⟩
  · obtain ⟨-, -, -, -, -, -, -, hfound⟩ := Replay.found_again hlin.replay he hok hname hget
    exact hfound
  · obtain ⟨value, value', i, j, k, l, hreply, hreply', hij, hj, hkl, hl⟩ :=
      Replay.counts hlin.replay he hok hname hget hm
    exact ⟨value, value', i, j, k, l, hreply, hreply', hij, hj.trans hlength, hkl, hl.trans hlength⟩
  · obtain ⟨value, stats, hreply, z, hz, v, hpost, hzname, hv, hbytes⟩ :=
      Replay.posted hlin.replay he hok hname hget hm
    have hzlin : z ∈ lin := by
      rw [he]
      exact List.mem_append_right _ (List.mem_append_left (_ :: _) hz)
    refine ⟨value, stats, hreply, z.call, z.op, v, hlinearizes.invoked z hzlin, hpost, hzname, hv, hbytes,
      fun hprec => ?_, fun hprec => ?_⟩
    · have hzx := hlinearizes.realTime z hzlin _ hx hprec
      rcases List.mem_cons.1 hz with rfl | hz
      · exact hzx.asymm hnodup hzx
      · have hafter : lin = (before ++ [⟨n, req, reply⟩]) ++
            ((between₁ ++ between₂) ++ ⟨n', req', reply'⟩ :: after) := by
          simp [he]
        exact hzx.asymm hnodup ⟨_, _, hafter, by simp, List.mem_append_left _ hz⟩
    · have hyz := hlinearizes.realTime _ hy z hzlin hprec
      have hbefore : lin = (before ++ ⟨n, req, reply⟩ :: (between₁ ++ between₂)) ++ ⟨n', req', reply'⟩ :: after := by
        simp [he]
      exact hyz.asymm hnodup ⟨_, _, hbefore, List.mem_append_right _ hz, List.mem_cons_self⟩

end Replies

section Runs

attribute [local instance] Allocator.exact

/-- Two threads GET the same record, one after the other. -/
theorem second_get_counts_on : ∃ (ls : List (ServerLabel Bool)) (s : Server Bool) (reply reply' : Response),
    Run (ServerStep JsonText.library) (.start Bool (.load [(ascii "a", ascii "1")]) none) ls s ∧
      Answered (requestHistory ls) 0 ⟨.get, ascii "a", []⟩ reply ∧
      Answered (requestHistory ls) 1 ⟨.get, ascii "a", []⟩ reply' ∧ reply.code = 200 ∧ reply'.code = 200 ∧
      ∃ value value' i j k l,
        reply = response JsonText.library .ok (recordBody (ascii "a") ⟨value, ⟨.ofNat i, .ofNat k⟩⟩) ∧
        reply' = response JsonText.library .ok (recordBody (ascii "a") ⟨value', ⟨.ofNat j, .ofNat l⟩⟩) ∧
        i < j ∧ j ≤ s.requests ∧ k ≤ l ∧ l ≤ s.requests := by
  have hcall : Request.call JsonText.library ⟨.get, ascii "a", []⟩ = .ok (.get (ascii "a")) := rfl
  have h₀ : Run (ServerStep JsonText.library) (.start Bool (.load [(ascii "a", ascii "1")]) none) [] _ := .nil
  have h₁ := h₀.snoc (.receive (t := false) ⟨.get, ascii "a", []⟩ rfl rfl)
  have h₂ := h₁.snoc (.call (t := false) rfl hcall (.invoke _ rfl))
  have h₃ := h₂.snoc (.exec (.exec (t := false) rfl (.getLock rfl)))
  have h₄ := h₃.snoc (.exec (.exec (t := false) rfl (.getFindHit rfl)))
  have h₅ := h₄.snoc (.exec (.exec (t := false) rfl (.getReads rfl)))
  have h₆ := h₅.snoc (.exec (.exec (t := false) rfl (.getWrites rfl)))
  have h₇ := h₆.snoc (.exec (.exec (t := false) rfl .getGlobal))
  have h₈ := h₇.snoc (.exec (.exec (t := false) rfl (.getCopy rfl)))
  have h₉ := h₈.snoc (.exec (.exec (t := false) rfl .getUnlock))
  have h₁₀ := h₉.snoc (.finish (t := false) rfl (.ret rfl))
  have h₁₁ := h₁₀.snoc (.reply (t := false) rfl)
  have h₁₂ := h₁₁.snoc (.receive (t := true) ⟨.get, ascii "a", []⟩ rfl rfl)
  have h₁₃ := h₁₂.snoc (.call (t := true) rfl hcall (.invoke _ rfl))
  have h₁₄ := h₁₃.snoc (.exec (.exec (t := true) rfl (.getLock rfl)))
  have h₁₅ := h₁₄.snoc (.exec (.exec (t := true) rfl (.getFindHit rfl)))
  have h₁₆ := h₁₅.snoc (.exec (.exec (t := true) rfl (.getReads rfl)))
  have h₁₇ := h₁₆.snoc (.exec (.exec (t := true) rfl (.getWrites rfl)))
  have h₁₈ := h₁₇.snoc (.exec (.exec (t := true) rfl .getGlobal))
  have h₁₉ := h₁₈.snoc (.exec (.exec (t := true) rfl (.getCopy rfl)))
  have h₂₀ := h₁₉.snoc (.exec (.exec (t := true) rfl .getUnlock))
  have h₂₁ := h₂₀.snoc (.finish (t := true) rfl (.ret rfl))
  have h₂₂ := h₂₁.snoc (.reply (t := true) rfl)
  obtain ⟨ls, s, hrun, hhistory⟩ : ∃ ls s,
      Run (ServerStep JsonText.library) (.start Bool (.load [(ascii "a", ascii "1")]) none) ls s ∧
        requestHistory ls = [.invoke 0 ⟨.get, ascii "a", []⟩,
          .ret 0 (response JsonText.library .ok (recordBody (ascii "a") ⟨ascii "1", ⟨1, 0⟩⟩)),
          .invoke 1 ⟨.get, ascii "a", []⟩,
          .ret 1 (response JsonText.library .ok (recordBody (ascii "a") ⟨ascii "1", ⟨2, 0⟩⟩))] := ⟨_, _, h₂₂, rfl⟩
  have hfirst : Answered (requestHistory ls) 0 ⟨.get, ascii "a", []⟩
      (response JsonText.library .ok (recordBody (ascii "a") ⟨ascii "1", ⟨1, 0⟩⟩)) := by
    rw [Answered, hhistory]
    simp
  have hsecond : Answered (requestHistory ls) 1 ⟨.get, ascii "a", []⟩
      (response JsonText.library .ok (recordBody (ascii "a") ⟨ascii "1", ⟨2, 0⟩⟩)) := by
    rw [Answered, hhistory]
    simp
  have hprecedes : Precedes (requestHistory ls) 0 1 := by
    rw [hhistory]
    exact ⟨[_, _], [_, _], _, _, rfl, List.mem_cons_of_mem _ List.mem_cons_self, List.mem_cons_self⟩
  obtain ⟨hok, hcounts, -⟩ := later_get_sees hrun hfirst hsecond hprecedes rfl rfl rfl
  exact ⟨ls, s, _, _, hrun, hfirst, hsecond, rfl, hok, hcounts rfl⟩

end Runs

end HttpServer

end KeyValueServer
