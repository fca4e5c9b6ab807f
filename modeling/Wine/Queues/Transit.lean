import Wine.Queues.Lifecycle

/-!
# Results on their way

What a change of one queue or of one result does to the invariant, and the changes that the server
makes: a message leaves a list, a result is pushed on a stack, taken from it, stored or freed.
-/

namespace Wine.Queues
open Wine.Lib

variable {s : State} {q r : ℕ} {queue other : Queue} {res res' : MessageResult} {x y : Option ℕ}
  {msg : Message} {kind : MessageKind}

/-- The lists of a queue that results and messages are linked in. -/
def Queue.lists (queue : Queue) : List Message × List Message × List ℕ × List ℕ × List ℕ :=
  (queue.sendMsgs, queue.postMsgs, queue.sendResult, queue.callbackResult, queue.recvResult)

theorem recvOwner_none (hr : s.results r = some res) :
    s.recvOwner none = Function.update (s.recvOwner (some r)) r res.receiver := by
  funext i
  by_cases hi : i = r
  · subst hi
    simp only [State.recvOwner, reduceCtorEq, if_false, hr, Option.bind_some, Function.update_self]
  · simp only [Function.update_of_ne hi, State.recvOwner, reduceCtorEq, if_false,
      Option.some.injEq, Ne.symm hi]

theorem recvOwner_some : s.recvOwner (some r) = Function.update (s.recvOwner none) r none := by
  funext i
  by_cases hi : i = r
  · subst hi
    rw [Function.update_self, State.recvOwner, if_pos rfl]
  · simp only [Function.update_of_ne hi, State.recvOwner, reduceCtorEq, if_false,
      Option.some.injEq, Ne.symm hi]

theorem sendLists_eq (hq : s.queues q = some queue) : s.sendLists q = queue.sends := by
  rw [State.sendLists, hq, Option.elim]

theorem recvLists_eq (hq : s.queues q = some queue) : s.recvLists q = queue.receives := by
  rw [State.recvLists, hq, Option.elim]

theorem msgLists_eq (hq : s.queues q = some queue) : s.msgLists (.queue q) = queue.msgIds := by
  rw [State.msgLists, hq, Option.elim]

namespace PreInv

theorem next (h : PreInv x s) {n : ℕ} (hn : s.next ≤ n) : PreInv x { s with next := n } :=
  { h with
    freshQueue := fun q hq => h.freshQueue q (Nat.le_trans hn hq)
    freshResult := fun r hr => h.freshResult r (Nat.le_trans hn hr)
    freshMsg := fun c m hm => Nat.lt_of_lt_of_le (h.freshMsg c m hm) hn }

theorem queue_lt (h : PreInv x s) (hq : s.queues q = some queue) : q < s.next := by
  by_contra hlt
  rw [h.freshQueue q (Nat.not_lt.mp hlt)] at hq
  cases hq

theorem setQueue (h : PreInv x s) (hq : q < s.next)
    (hrecv : Linked (Function.update s.recvLists q other.receives) (s.recvOwner y))
    (hmsg : Separate (Function.update s.msgLists (.queue q) other.msgIds))
    (hids : ∀ m ∈ other.msgIds, m < s.next) (hsound : other.Sound)
    (hreceived : ∀ r ∈ other.recvResult, ∀ res, s.results r = some res → res.msg = none)
    (hunread : ∀ msg ∈ other.sendMsgs, ∀ r, msg.result = some r →
      ∀ res, s.results r = some res → res.msg = some msg.id)
    (hheld : ∀ r res, s.results r = some res → y ≠ some r → res.Held) :
    PreInv y (s.setQueue q (some other)) := by
  have hqueue : ∀ i, i ≠ q → (s.setQueue q (some other)).queues i = s.queues i :=
    fun i hi => State.setQueue_of_ne hi
  refine
    { h with
      receiving := recvLists_setQueue ▸ hrecv
      messages := msgLists_setQueue ▸ hmsg
      live := fun c i hi => ?_
      queue := fun i queue' hi => ?_
      received := fun i queue' hi => ?_
      unread := fun i queue' hi => ?_
      held := hheld
      freshQueue := fun i hi => ?_
      freshMsg := fun c m hm => ?_ }
  · by_cases hiq : i = q
    · subst hiq
      rw [State.setQueue_self]
      exact Option.some_ne_none _
    · rw [hqueue i hiq]
      exact h.live c i hi
  · by_cases hiq : i = q
    · subst hiq
      rw [State.setQueue_self] at hi
      exact Option.some.inj hi ▸ hsound
    · rw [hqueue i hiq] at hi
      exact h.queue i queue' hi
  · by_cases hiq : i = q
    · subst hiq
      rw [State.setQueue_self] at hi
      exact Option.some.inj hi ▸ hreceived
    · rw [hqueue i hiq] at hi
      exact h.received i queue' hi
  · by_cases hiq : i = q
    · subst hiq
      rw [State.setQueue_self] at hi
      exact Option.some.inj hi ▸ hunread
    · rw [hqueue i hiq] at hi
      exact h.unread i queue' hi
  · rw [hqueue i fun hiq => ?_]
    · exact h.freshQueue i hi
    · exact absurd hq (Nat.not_lt.mpr (hiq ▸ hi))
  · rw [msgLists_setQueue] at hm
    by_cases hc : c = .queue q
    · subst hc
      rw [Function.update_self] at hm
      exact hids m hm
    · rw [Function.update_of_ne hc] at hm
      exact h.freshMsg c m hm

/-- The lists of the sender do not matter. -/
theorem setQueue_same (h : PreInv x s) (hq : s.queues q = some queue)
    (hsm : other.sendMsgs = queue.sendMsgs) (hpm : other.postMsgs = queue.postMsgs)
    (hrr : other.recvResult = queue.recvResult)
    (ha : other.timeout = true → other.pendingTimers ≠ []) :
    PreInv x (s.setQueue q (some other)) := by
  have hrecvs : other.receives = queue.receives := by rw [Queue.receives, hrr, hsm, Queue.receives]
  have hids : other.msgIds = queue.msgIds := by rw [Queue.msgIds, hsm, hpm, Queue.msgIds]
  refine h.setQueue (h.queue_lt hq) (h.receiving.reorder ?_) (h.messages.shrink ?_) ?_ ⟨?_, ha⟩ ?_ ?_ h.held
  · rw [recvLists_eq hq, hrecvs]
  · rw [msgLists_eq hq, hids]
  · rw [hids, ← msgLists_eq hq]
    exact h.freshMsg _
  · rw [hpm]
    exact (h.queue q queue hq).posted
  · rw [hrr]
    exact h.received q queue hq
  · rw [hsm]
    exact h.unread q queue hq

/-- A result is written that gets no callback message, and that keeps its message unless it is in
transit. -/
theorem setResult (h : PreInv x s) (hr : s.results r = some res) {ts : List ℕ} {as bs : ℕ → ℕ}
    (hcb : ∀ msg, res'.callbackMsg = some msg → res.callbackMsg = some msg)
    (hrecv : (if y = some r then none else res'.receiver) = s.recvOwner x r)
    (hxy : ∀ i, i ≠ r → (x = some i ↔ y = some i))
    (hmsg : s.recvOwner x r ≠ none → res'.msg = res.msg)
    (hpend : Linked (fun _ => ts)
      (Function.update s.timeoutOwner r (if res'.timeout then some () else none)))
    (hsound : res'.Sound) (hheld : y ≠ some r → res'.Held)
    (has : ∀ i, i ≠ r → as i = s.answers i ∧ bs i = s.abandons i)
    (hsent : res'.sender ≠ none → as r = res'.replied.toNat ∧ bs r = 0)
    (hleft : res'.sender = none → as r + bs r = 1) :
    PreInv y { s.setResult r (some res') with timeouts := ts, answers := as, abandons := bs } := by
  have hres : ∀ i, i ≠ r → (s.setResult r (some res')).results i = s.results i :=
    fun i hi => State.setResult_of_ne hi
  have hself : (s.setResult r (some res')).results r = some res' := State.setResult_self
  have hrecvOwner : (s.setResult r (some res')).recvOwner y = s.recvOwner x := by
    funext i
    by_cases hi : i = r
    · subst hi
      rw [← hrecv, State.recvOwner, hself, Option.bind_some]
    · simp only [State.recvOwner, hres i hi, hxy i hi]
  have hmsgs : (s.setResult r (some res')).msgLists = Function.update s.msgLists (.result r)
      (res'.callbackMsg.elim [] fun msg => [msg.id]) := msgLists_setResult
  have hsub : (res'.callbackMsg.elim [] fun msg => [msg.id]).Sublist (s.msgLists (.result r)) := by
    cases hc : res'.callbackMsg with
    | none => exact List.nil_sublist _
    | some msg => simp only [State.msgLists, hr, Option.bind_some, hcb msg hc, Option.elim, List.Sublist.refl]
  have hinlist : ∀ q queue, s.queues q = some queue → r ∈ queue.receives → res'.msg = res.msg := by
    intro q queue hq hm
    refine hmsg fun hnone => h.receiving.not_mem_of_owner (c := q) hnone ?_
    rwa [recvLists_eq hq]
  refine
    { h with
      receiving := hrecvOwner ▸ h.receiving
      pending := ?_
      messages := hmsgs ▸ h.messages.shrink hsub.subperm
      received := fun q queue hq i hi res'' hi' => ?_
      unread := fun q queue hq m hm i hmi res'' hi' => ?_
      result := fun i res'' hi => ?_
      held := fun i res'' hi hyi => ?_
      counted := fun i => ?_
      freshMsg := fun c m hm => ?_ }
  · have := @timeoutOwner_setResult s r (some res')
    exact this ▸ hpend
  · by_cases hir : i = r
    · subst hir
      obtain rfl := Option.some.inj (hself.symm.trans hi')
      exact (hinlist q queue hq (List.mem_append_left _ hi)).trans (h.received q queue hq i hi res hr)
    · exact h.received q queue hq i hi res'' ((hres i hir).symm.trans hi')
  · by_cases hir : i = r
    · subst hir
      obtain rfl := Option.some.inj (hself.symm.trans hi')
      refine (hinlist q queue hq (List.mem_append_right _ ?_)).trans (h.unread q queue hq m hm i hmi res hr)
      exact List.mem_filterMap.mpr ⟨m, hm, hmi⟩
    · exact h.unread q queue hq m hm i hmi res'' ((hres i hir).symm.trans hi')
  · by_cases hir : i = r
    · subst hir
      exact Option.some.inj (hself.symm.trans hi) ▸ hsound
    · exact h.result i res'' ((hres i hir).symm.trans hi)
  · by_cases hir : i = r
    · subst hir
      exact Option.some.inj (hself.symm.trans hi) ▸ hheld hyi
    · exact h.held i res'' ((hres i hir).symm.trans hi) fun hx => hyi ((hxy i hir).mp hx)
  · have hc := h.counted i
    by_cases hir : i = r
    · subst hir
      simp only [State.Counted, hr] at hc
      simp only [State.Counted, hself]
      exact ⟨hc.1, hc.2.1, hsent, hleft⟩
    · obtain ⟨ha, hb⟩ := has i hir
      simp only [State.Counted, hres i hir, ha, hb]
      exact hc
  · have hm' : m ∈ Function.update s.msgLists (.result r)
        (res'.callbackMsg.elim [] fun msg => [msg.id]) c := hmsgs ▸ hm
    by_cases hc : c = .result r
    · subst hc
      rw [Function.update_self] at hm'
      exact h.freshMsg _ m (hsub.subset hm')
    · rw [Function.update_of_ne hc] at hm'
      exact h.freshMsg c m hm'

theorem results_none (h : PreInv x s) (hm : s.made r = false) : s.results r = none := by
  have hc := h.counted r
  cases hr : s.results r with
  | none => rfl
  | some res =>
    simp only [State.Counted, hr, hm] at hc
    exact absurd hc.1 (fun h => by cases h)

/-- A new result is in transit, since its message is in no list yet. -/
theorem newResult (h : PreInv none s) (hm : s.made r = false) (hlt : r < s.next) {ts : List ℕ}
    (hsender : res.sender ≠ none) (hreplied : res.replied = false) (hsound : res.Sound)
    (hfresh : ∀ msg, res.callbackMsg = some msg → msg.id < s.next ∧ ∀ c, msg.id ∉ s.msgLists c)
    (hpend : Linked (fun _ => ts)
      (Function.update s.timeoutOwner r (if res.timeout then some () else none))) :
    PreInv (some r) { s.setResult r (some res) with
      timeouts := ts
      made := Function.update s.made r true } := by
  have hnone := h.results_none hm
  have hres : ∀ i, i ≠ r → (s.setResult r (some res)).results i = s.results i :=
    fun i hi => State.setResult_of_ne hi
  have hself : (s.setResult r (some res)).results r = some res := State.setResult_self
  have hout : s.recvOwner none r = none := by
    rw [State.recvOwner, hnone]
    rfl
  have hrecvOwner : (s.setResult r (some res)).recvOwner (some r) = s.recvOwner none := by
    rw [recvOwner_setResult, if_pos rfl, recvOwner_some, Function.update_idem,
      Function.update_eq_iff]
    exact ⟨hout.symm, fun _ _ => rfl⟩
  have hmsgs : (s.setResult r (some res)).msgLists = Function.update s.msgLists (.result r)
      (res.callbackMsg.elim [] fun msg => [msg.id]) := msgLists_setResult
  have hinlist : ∀ q queue, s.queues q = some queue → r ∉ queue.receives := by
    intro q queue hq hmem
    exact h.receiving.not_mem_of_owner (c := q) hout (by rwa [recvLists_eq hq])
  refine
    { h with
      receiving := hrecvOwner ▸ h.receiving
      pending := ?_
      messages := hmsgs ▸ ?_
      received := fun q queue hq i hi res' hi' => ?_
      unread := fun q queue hq m hm i hmi res' hi' => ?_
      result := fun i res' hi => ?_
      held := fun i res' hi hyi => ?_
      counted := fun i => ?_
      freshResult := fun i hi => ?_
      freshMsg := fun c m hm => ?_ }
  · have := @timeoutOwner_setResult s r (some res)
    exact this ▸ hpend
  · cases hc : res.callbackMsg with
    | none => exact h.messages.shrink List.nil_subperm
    | some msg =>
      refine h.messages.insert (hfresh msg hc).2 ?_
      rw [State.msgLists, hnone]
      exact List.Subperm.refl _
  · have hir : i ≠ r := fun hir => hinlist q queue hq (List.mem_append_left _ (hir ▸ hi))
    exact h.received q queue hq i hi res' ((hres i hir).symm.trans hi')
  · have hir : i ≠ r := fun hir =>
      hinlist q queue hq (List.mem_append_right _ (List.mem_filterMap.mpr ⟨m, hm, hir ▸ hmi⟩))
    exact h.unread q queue hq m hm i hmi res' ((hres i hir).symm.trans hi')
  · by_cases hir : i = r
    · subst hir
      exact Option.some.inj (hself.symm.trans hi) ▸ hsound
    · exact h.result i res' ((hres i hir).symm.trans hi)
  · have hir : i ≠ r := fun hir => hyi (hir ▸ rfl)
    exact h.held i res' ((hres i hir).symm.trans hi) (fun h => by cases h)
  · have hc := h.counted i
    by_cases hir : i = r
    · subst hir
      simp only [State.Counted, hnone, hm, Bool.toNat_false, Nat.add_eq_zero_iff] at hc
      simp only [State.Counted, hself, Function.update_self, hreplied]
      exact ⟨trivial, hc.1, fun _ => hc.2, fun hs => (hsender hs).elim⟩
    · simp only [State.Counted, hres i hir, Function.update_of_ne hir]
      exact hc
  · have hir : i ≠ r := fun hir => absurd hlt (Nat.not_lt.mpr (hir ▸ hi))
    exact (Function.update_of_ne hir ..).trans (h.freshResult i hi)
  · have hm' : m ∈ Function.update s.msgLists (.result r)
        (res.callbackMsg.elim [] fun msg => [msg.id]) c := hmsgs ▸ hm
    by_cases hc : c = .result r
    · subst hc
      rw [Function.update_self] at hm'
      cases hcb : res.callbackMsg with
      | none =>
        rw [hcb] at hm'
        cases hm'
      | some msg =>
        rw [hcb] at hm'
        obtain rfl := List.mem_singleton.mp hm'
        exact (hfresh msg hcb).1
    · rw [Function.update_of_ne hc] at hm'
      exact h.freshMsg c m hm'

end PreInv

namespace Inv

theorem next (h : Inv x s) {n : ℕ} (hn : s.next ≤ n) : Inv x { s with next := n } :=
  { h.toPreInv.next hn with sending := h.sending }

theorem setQueue (h : Inv x s) (hq : q < s.next)
    (hsend : Linked (Function.update s.sendLists q other.sends) s.sendOwner)
    (hrecv : Linked (Function.update s.recvLists q other.receives) (s.recvOwner y))
    (hmsg : Separate (Function.update s.msgLists (.queue q) other.msgIds))
    (hids : ∀ m ∈ other.msgIds, m < s.next) (hsound : other.Sound)
    (hreceived : ∀ r ∈ other.recvResult, ∀ res, s.results r = some res → res.msg = none)
    (hunread : ∀ msg ∈ other.sendMsgs, ∀ r, msg.result = some r →
      ∀ res, s.results r = some res → res.msg = some msg.id)
    (hheld : ∀ r res, s.results r = some res → y ≠ some r → res.Held) :
    Inv y (s.setQueue q (some other)) :=
  { h.toPreInv.setQueue hq hrecv hmsg hids hsound hreceived hunread hheld with
    sending := sendLists_setQueue ▸ hsend }

/-- What is no list does not matter. -/
theorem setQueue_same (h : Inv x s) (hq : s.queues q = some queue)
    (hl : other.lists = queue.lists) (ha : other.timeout = true → other.pendingTimers ≠ []) :
    Inv x (s.setQueue q (some other)) := by
  simp only [Queue.lists, Prod.mk.injEq] at hl
  obtain ⟨hsm, hpm, hsr, hcr, hrr⟩ := hl
  refine { h.toPreInv.setQueue_same hq hsm hpm hrr ha with sending := ?_ }
  rw [sendLists_setQueue]
  refine h.sending.reorder ?_
  rw [sendLists_eq hq, Queue.sends, hsr, hcr, Queue.sends]

/-- A list without the message with the id of one of its messages. -/
theorem perm_eraseP {l : List Message} (hnd : (l.map (·.id)).Nodup) (hm : msg ∈ l) :
    l.Perm (msg :: l.eraseP (·.id = msg.id)) := by
  obtain ⟨a, l₁, l₂, -, ha, hl, he⟩ :=
    List.exists_of_eraseP (p := fun m : Message => m.id = msg.id) hm (by simp)
  have hmem : a ∈ l := hl ▸ List.mem_append_right _ List.mem_cons_self
  obtain rfl := List.inj_on_of_nodup_map hnd hmem hm (by simpa using ha)
  rw [he, hl]
  exact List.perm_middle

theorem nodup_sendMsgs (h : Inv x s) (hq : s.queues q = some queue) :
    ((queue.sendMsgs ++ queue.postMsgs).map (·.id)).Nodup := by
  have hnd := h.messages.nodup (.queue q)
  rwa [msgLists_eq hq] at hnd

/-- A message leaves its list. The result that it points to is in transit. -/
theorem drop (h : Inv none s) (hq : s.queues q = some queue) (hm : msg ∈ queue.msgList kind)
    (hl : other.lists =
      (queue.setMsgList ((queue.msgList kind).eraseP (·.id = msg.id)) kind).lists)
    (ha : other.timeout = true → other.pendingTimers ≠ []) :
    Inv msg.result (s.setQueue q (some other)) := by
  simp only [Queue.lists, Prod.mk.injEq] at hl
  obtain ⟨hsm, hpm, hsr, hcr, hrr⟩ := hl
  have hnd := h.nodup_sendMsgs hq
  rw [List.map_append] at hnd
  have hsends : other.sends = queue.sends := by
    cases kind <;> rw [Queue.sends, hsr, hcr] <;> rfl
  have hrecv : other.recvResult = queue.recvResult := by cases kind <;> exact hrr
  have hsub : other.sendMsgs.Sublist queue.sendMsgs := by
    cases kind with
    | sendMessage => exact hsm ▸ List.eraseP_sublist
    | postMessage => exact hsm ▸ List.Sublist.refl _
  have hsub' : other.postMsgs.Sublist queue.postMsgs := by
    cases kind with
    | sendMessage => exact hpm ▸ List.Sublist.refl _
    | postMessage => exact hpm ▸ List.eraseP_sublist
  have hids : other.msgIds.Sublist queue.msgIds := (hsub.append hsub').map _
  refine h.setQueue (h.queue_lt hq) (h.sending.reorder ?_) ?_ (h.messages.shrink ?_) ?_ ⟨?_, ha⟩ ?_ ?_ ?_
  · rw [sendLists_eq hq, hsends]
  · cases kind with
    | postMessage =>
      rw [(h.queue q queue hq).posted msg hm]
      refine h.receiving.reorder ?_
      rw [recvLists_eq hq, Queue.receives, hrecv, hsm]
      rfl
    | sendMessage =>
      have hrest : (queue.sendMsgs.filterMap (·.result)).Perm
          (msg.result.toList ++ other.sendMsgs.filterMap (·.result)) := by
        have hperm := (perm_eraseP (List.nodup_append.mp hnd).1 hm).filterMap (·.result)
        rw [hsm]
        cases hres : msg.result with
        | none =>
          rw [List.filterMap_cons_none hres] at hperm
          exact hperm
        | some r =>
          rw [List.filterMap_cons_some hres] at hperm
          exact hperm
      have hrecvs : (s.recvLists q).Perm (msg.result.toList ++ other.receives) := by
        rw [recvLists_eq hq, Queue.receives, Queue.receives, hrecv]
        exact (hrest.append_left _).trans (List.perm_append_comm_assoc ..)
      cases hres : msg.result with
      | none =>
        rw [hres] at hrecvs
        exact h.receiving.reorder hrecvs.symm
      | some r =>
        rw [hres] at hrecvs
        rw [recvOwner_some]
        exact h.receiving.remove hrecvs
  · rw [msgLists_eq hq]
    exact hids.subperm
  · intro m hm
    exact h.freshMsg (.queue q) m (msgLists_eq hq ▸ hids.subset hm)
  · exact fun m hm => (h.queue q queue hq).posted m (hsub'.subset hm)
  · rw [hrecv]
    exact h.received q queue hq
  · exact fun m hm => h.unread q queue hq m (hsub.subset hm)
  · exact fun r res hr _ => h.held r res hr (fun h => by cases h)

/-- A message comes to the end of a list. The result that it points to is not in transit any more. -/
theorem add (kind : MessageKind) (h : Inv msg.result s) (hq : s.queues q = some queue)
    (hfresh : ∀ c, msg.id ∉ s.msgLists c) (hlt : msg.id < s.next)
    (hpost : kind = .postMessage → msg.result = none)
    (hres : ∀ r, msg.result = some r → ∃ res, s.results r = some res ∧ res.receiver = some q ∧
      res.msg = some msg.id ∧ res.Held)
    (hl : other.lists = (queue.setMsgList (queue.msgList kind ++ [msg]) kind).lists)
    (ha : other.timeout = true → other.pendingTimers ≠ []) :
    Inv none (s.setQueue q (some other)) := by
  simp only [Queue.lists, Prod.mk.injEq] at hl
  obtain ⟨hsm, hpm, hsr, hcr, hrr⟩ := hl
  have hsends : other.sends = queue.sends := by
    cases kind <;> rw [Queue.sends, hsr, hcr] <;> rfl
  have hrecv : other.recvResult = queue.recvResult := by cases kind <;> exact hrr
  have hids : other.msgIds.Perm (msg.id :: queue.msgIds) := by
    rw [Queue.msgIds, Queue.msgIds, hsm, hpm]
    cases kind with
    | sendMessage =>
      simp only [Queue.setMsgList, Queue.msgList, List.append_assoc, List.singleton_append]
      exact List.perm_middle.map _
    | postMessage =>
      simp only [Queue.setMsgList, Queue.msgList, ← List.append_assoc]
      exact (List.perm_append_singleton ..).map _
  have hsend : ∀ m ∈ other.sendMsgs, m ∈ queue.sendMsgs ∨ kind = .sendMessage ∧ m = msg := by
    intro m hm
    rw [hsm] at hm
    cases kind with
    | postMessage => exact .inl hm
    | sendMessage => exact (List.mem_append.mp hm).imp_right fun hm => ⟨rfl, List.mem_singleton.mp hm⟩
  refine h.setQueue (h.queue_lt hq) (h.sending.reorder ?_) ?_ (h.messages.insert hfresh ?_) ?_ ⟨?_, ha⟩ ?_ ?_ ?_
  · rw [sendLists_eq hq, hsends]
  · cases hmr : msg.result with
    | none =>
      rw [hmr] at h
      refine h.receiving.reorder ?_
      rw [recvLists_eq hq, Queue.receives, Queue.receives, hrecv, hsm]
      cases kind with
      | postMessage => rfl
      | sendMessage =>
        simp only [Queue.setMsgList, Queue.msgList, List.filterMap_append,
          List.filterMap_cons_none hmr, List.filterMap_nil, List.append_nil]
        rfl
    | some r =>
      obtain ⟨res, hr, hrq, -, -⟩ := hres r hmr
      rw [hmr] at h
      rw [recvOwner_none hr, hrq]
      refine h.receiving.insert (if_pos rfl) ?_
      cases kind with
      | postMessage => rw [hpost rfl] at hmr; cases hmr
      | sendMessage =>
        rw [recvLists_eq hq, Queue.receives, Queue.receives, hrecv, hsm]
        simp only [Queue.setMsgList, Queue.msgList, List.filterMap_append,
          List.filterMap_cons_some hmr, List.filterMap_nil, ← List.append_assoc]
        exact List.perm_append_singleton ..
  · rw [msgLists_eq hq]
    exact hids.subperm
  · intro m hm
    cases List.mem_cons.mp (hids.subset hm) with
    | inl hm => exact hm ▸ hlt
    | inr hm => exact h.freshMsg (.queue q) m (msgLists_eq hq ▸ hm)
  · intro m hm
    rw [hpm] at hm
    cases kind with
    | sendMessage => exact (h.queue q queue hq).posted m hm
    | postMessage =>
      cases List.mem_append.mp hm with
      | inl hm => exact (h.queue q queue hq).posted m hm
      | inr hm => exact List.mem_singleton.mp hm ▸ hpost rfl
  · rw [hrecv]
    exact h.received q queue hq
  · intro m hm r hmr res' hr'
    cases hsend m hm with
    | inl hm => exact h.unread q queue hq m hm r hmr res' hr'
    | inr hm =>
      obtain rfl := hm.2
      obtain ⟨res, hr, -, hmsg, -⟩ := hres r hmr
      rw [hr] at hr'
      exact Option.some.inj hr' ▸ hmsg
  · intro r res' hr' _
    by_cases hmr : msg.result = some r
    · obtain ⟨res, hr, -, -, hheld⟩ := hres r hmr
      rw [hr] at hr'
      exact Option.some.inj hr' ▸ hheld
    · exact h.held r res' hr' hmr

/-- A result in transit is pushed on the stack of its receiver. -/
theorem push (h : Inv (some r) s) (hq : s.queues q = some queue) (hr : s.results r = some res)
    (hrq : res.receiver = some q) (hmsg : res.msg = none) (hheld : res.Held)
    (hl : other.lists = { queue with recvResult := r :: queue.recvResult }.lists)
    (ha : other.timeout = true → other.pendingTimers ≠ []) :
    Inv none (s.setQueue q (some other)) := by
  simp only [Queue.lists, Prod.mk.injEq] at hl
  obtain ⟨hsm, hpm, hsr, hcr, hrr⟩ := hl
  have hids : other.msgIds = queue.msgIds := by rw [Queue.msgIds, hsm, hpm, Queue.msgIds]
  refine h.setQueue (h.queue_lt hq) (h.sending.reorder ?_) ?_ (h.messages.shrink ?_) ?_ ⟨?_, ha⟩ ?_ ?_ ?_
  · rw [sendLists_eq hq, Queue.sends, hsr, hcr, Queue.sends]
  · rw [recvOwner_none hr, hrq]
    refine h.receiving.insert (if_pos rfl) ?_
    rw [recvLists_eq hq, Queue.receives, Queue.receives, hrr, hsm, List.cons_append]
  · rw [msgLists_eq hq, hids]
  · rw [hids, ← msgLists_eq hq]
    exact h.freshMsg _
  · rw [hpm]
    exact (h.queue q queue hq).posted
  · intro i hi res' hi'
    rw [hrr] at hi
    cases List.mem_cons.mp hi with
    | inl hi =>
      rw [hi, hr] at hi'
      exact Option.some.inj hi' ▸ hmsg
    | inr hi => exact h.received q queue hq i hi res' hi'
  · rw [hsm]
    exact h.unread q queue hq
  · intro i res' hi _
    by_cases hir : r = i
    · rw [← hir, hr] at hi
      exact Option.some.inj hi ▸ hheld
    · exact h.held i res' hi (by simpa using hir)

/-- The top of a stack is taken from it. -/
theorem pop (h : Inv none s) (hq : s.queues q = some queue) {rest : List ℕ}
    (htop : queue.recvResult = r :: rest)
    (hl : other.lists = { queue with recvResult := rest }.lists)
    (ha : other.timeout = true → other.pendingTimers ≠ []) :
    Inv (some r) (s.setQueue q (some other)) := by
  simp only [Queue.lists, Prod.mk.injEq] at hl
  obtain ⟨hsm, hpm, hsr, hcr, hrr⟩ := hl
  have hids : other.msgIds = queue.msgIds := by rw [Queue.msgIds, hsm, hpm, Queue.msgIds]
  refine h.setQueue (h.queue_lt hq) (h.sending.reorder ?_) ?_ (h.messages.shrink ?_) ?_ ⟨?_, ha⟩ ?_ ?_ ?_
  · rw [sendLists_eq hq, Queue.sends, hsr, hcr, Queue.sends]
  · rw [recvOwner_some]
    refine h.receiving.remove ?_
    rw [recvLists_eq hq, Queue.receives, Queue.receives, htop, hrr, hsm, List.cons_append]
  · rw [msgLists_eq hq, hids]
  · rw [hids, ← msgLists_eq hq]
    exact h.freshMsg _
  · rw [hpm]
    exact (h.queue q queue hq).posted
  · intro i hi
    rw [hrr] at hi
    exact h.received q queue hq i (htop ▸ List.mem_cons_of_mem _ hi)
  · rw [hsm]
    exact h.unread q queue hq
  · exact fun i res' hi _ => h.held i res' hi (fun h => by cases h)

/-- A result in transit without a sender is freed. -/
theorem free (h : Inv (some r) s) (hr : s.results r = some res) (hsender : res.sender = none)
    {ts : List ℕ} (hpend : Linked (fun _ => ts) (Function.update s.timeoutOwner r none)) :
    Inv none { s.setResult r none with
      timeouts := ts
      frees := Function.update s.frees r (s.frees r + 1) } := by
  have hres : ∀ i, i ≠ r → (s.setResult r none).results i = s.results i :=
    fun i hi => State.setResult_of_ne hi
  have hself : (s.setResult r none).results r = none := State.setResult_self
  have hother : ∀ i res', (s.setResult r none).results i = some res' →
      i ≠ r ∧ s.results i = some res' := by
    intro i res' hi
    have hir : i ≠ r := fun hir => by
      rw [hir, hself] at hi
      cases hi
    exact ⟨hir, (hres i hir).symm.trans hi⟩
  have howner : (s.setResult r none).sendOwner = s.sendOwner := by
    rw [sendOwner_setResult, Function.update_eq_iff]
    refine ⟨?_, fun _ _ => rfl⟩
    rw [Option.bind_none, State.sendOwner, hr, Option.bind_some, hsender]
  have hrecvOwner : (s.setResult r none).recvOwner none = s.recvOwner (some r) := by
    rw [recvOwner_setResult, recvOwner_some]
    rfl
  have hmsgs : (s.setResult r none).msgLists = Function.update s.msgLists (.result r) [] :=
    msgLists_setResult
  refine
    { h with
      sending := howner ▸ h.sending
      receiving := hrecvOwner ▸ h.receiving
      pending := ?_
      messages := hmsgs ▸ h.messages.shrink (List.nil_subperm)
      received := fun q queue hq i hi res' hi' => h.received q queue hq i hi res' (hother i res' hi').2
      unread := fun q queue hq m hm i hmi res' hi' =>
        h.unread q queue hq m hm i hmi res' (hother i res' hi').2
      result := fun i res' hi => h.result i res' (hother i res' hi).2
      held := fun i res' hi _ =>
        h.held i res' (hother i res' hi).2 fun hri => (hother i res' hi).1 (Option.some.inj hri).symm
      counted := fun i => ?_
      freshMsg := fun c m hm => ?_ }
  · have := @timeoutOwner_setResult s r none
    exact this ▸ hpend
  · have hc := h.counted i
    by_cases hir : i = r
    · subst hir
      simp only [State.Counted, hr] at hc
      have hmade : (s.setResult i none).made i = true := hc.1
      simp only [State.Counted, hself, Function.update_self, hmade, hc.2.1]
      exact ⟨rfl, hc.2.2.2 hsender⟩
    · simp only [State.Counted, hres i hir, Function.update_of_ne hir]
      exact hc
  · have hm' : m ∈ Function.update s.msgLists (.result r) [] c := hmsgs ▸ hm
    by_cases hc : c = .result r
    · subst hc
      rw [Function.update_self] at hm'
      cases hm'
    · rw [Function.update_of_ne hc] at hm'
      exact h.freshMsg c m hm'

/-- A result is written that keeps its sender. -/
theorem setResult (h : Inv x s) (hr : s.results r = some res) {ts : List ℕ} {as : ℕ → ℕ}
    (hsender : res'.sender = res.sender)
    (hcb : ∀ msg, res'.callbackMsg = some msg → res.callbackMsg = some msg)
    (hrecv : (if y = some r then none else res'.receiver) = s.recvOwner x r)
    (hxy : ∀ i, i ≠ r → (x = some i ↔ y = some i))
    (hmsg : s.recvOwner x r ≠ none → res'.msg = res.msg)
    (hpend : Linked (fun _ => ts)
      (Function.update s.timeoutOwner r (if res'.timeout then some () else none)))
    (hsound : res'.Sound) (hheld : y ≠ some r → res'.Held)
    (has : ∀ i, i ≠ r → as i = s.answers i)
    (hsent : res.sender ≠ none → as r = res'.replied.toNat)
    (hleft : res.sender = none → as r = s.answers r) :
    Inv y { s.setResult r (some res') with timeouts := ts, answers := as } := by
  have hc := h.counted r
  simp only [State.Counted, hr] at hc
  refine
    { h.toPreInv.setResult hr hcb hrecv hxy hmsg hpend hsound hheld
        (fun i hi => ⟨has i hi, rfl⟩) (fun hs => ?_) fun hs => ?_ with
      sending := ?_ }
  · rw [hsender] at hs
    exact ⟨hsent hs, (hc.2.2.1 hs).2⟩
  · rw [hsender] at hs
    rw [hleft hs]
    exact hc.2.2.2 hs
  · have howner : (s.setResult r (some res')).sendOwner = s.sendOwner := by
      rw [sendOwner_setResult, Function.update_eq_iff]
      refine ⟨?_, fun _ _ => rfl⟩
      rw [Option.bind_some, hsender, State.sendOwner, hr, Option.bind_some]
    exact howner ▸ h.sending

omit s in
theorem perm_erase_sends (hnd : queue.sends.Nodup) (hm : r ∈ queue.sends) :
    queue.sends.Perm (r :: (queue.sendResult.erase r ++ queue.callbackResult.erase r)) := by
  by_cases hr : r ∈ queue.sendResult
  · have hout : r ∉ queue.callbackResult := fun hc => (List.nodup_append.mp hnd).2.2 r hr r hc rfl
    rw [List.erase_of_not_mem hout]
    exact (List.perm_cons_erase hr).append_right _
  · have hc : r ∈ queue.callbackResult := (List.mem_append.mp hm).resolve_left hr
    rw [List.erase_of_not_mem hr]
    exact ((List.perm_cons_erase hc).append_left _).trans List.perm_middle

/-- A result is taken from the list of its sender. It is in transit if its receiver is gone too. -/
theorem unlink (h : Inv none s) (hr : s.results r = some res) (hs : res.sender = some q)
    (hq : s.queues q = some queue)
    (hy : y = none ∧ res.receiver ≠ none ∨ y = some r ∧ res.receiver = none) {bs : ℕ → ℕ}
    (hbs : ∀ i, i ≠ r → bs i = s.abandons i)
    (hbr : bs r = if res.replied then s.abandons r else s.abandons r + 1) :
    Inv y { (s.setQueue q (some { queue with
        sendResult := queue.sendResult.erase r
        callbackResult := queue.callbackResult.erase r })).setResult r
      (some { res with sender := none }) with abandons := bs } := by
  have hc := h.counted r
  simp only [State.Counted, hr] at hc
  have hmem : r ∈ queue.sends := by
    rw [← sendLists_eq hq]
    exact h.sending.mem_of_owner (by rw [State.sendOwner, hr, Option.bind_some, hs])
  have hnd : queue.sends.Nodup := sendLists_eq hq ▸ h.sending.nodup q
  have hpre : PreInv none (s.setQueue q (some { queue with
      sendResult := queue.sendResult.erase r
      callbackResult := queue.callbackResult.erase r })) :=
    h.toPreInv.setQueue_same hq rfl rfl rfl (h.queue q queue hq).armed
  have howner : s.timeoutOwner r = if res.timeout then some () else none := by
    rw [State.timeoutOwner, hr, Option.bind_some]
  refine ⟨hpre.setResult hr (fun _ he => he) ?_ (fun i hi => ?_) (fun _ => rfl) ?_ ?_ (fun hyr => ?_)
    (fun i hi => ⟨rfl, hbs i hi⟩) (fun hn => (hn rfl).elim) (fun _ => ?_), ?_⟩
  · have hrecv : s.recvOwner none r = res.receiver := by
      rw [State.recvOwner, if_neg (fun h => by cases h), hr, Option.bind_some]
    refine Eq.trans ?_ hrecv.symm
    obtain ⟨rfl, -⟩ | ⟨rfl, hnone⟩ := hy
    · exact if_neg (fun h => by cases h)
    · rw [if_pos rfl, hnone]
  · obtain ⟨rfl, -⟩ | ⟨rfl, -⟩ := hy
    · exact Iff.rfl
    · simpa using Ne.symm hi
  · show Linked (fun _ => s.timeouts)
      (Function.update s.timeoutOwner r (if res.timeout then some () else none))
    rw [← howner, Function.update_eq_self]
    exact h.pending
  · exact ⟨(h.result r res hr).unread, (h.result r res hr).timeout, (h.result r res hr).callback⟩
  · have hrcv : res.receiver ≠ none := (hy.resolve_right fun he => hyr he.1).2
    exact ⟨.inr hrcv, (h.held r res hr (fun h => by cases h)).gone⟩
  · have hsent := hc.2.2.1 (by rw [hs]; exact Option.some_ne_none _)
    show s.answers r + bs r = 1
    rw [hbr, hsent.1, hsent.2]
    cases res.replied <;> rfl
  · have hlists := @sendLists_setQueue s q { queue with
      sendResult := queue.sendResult.erase r
      callbackResult := queue.callbackResult.erase r }
    have howner := @sendOwner_setResult s r (some { res with sender := none })
    refine Eq.mpr ?_ (h.sending.remove (l := queue.sendResult.erase r ++ queue.callbackResult.erase r)
      (c := q) (a := r) ?_)
    · exact congrArg₂ Linked hlists howner
    · rw [sendLists_eq hq]
      exact perm_erase_sends hnd hmem

/-- The callback message of a result goes to the list of its sender. -/
theorem callback (m : Message) (h : Inv none s) (hr : s.results r = some res) (hcb : res.callbackMsg = some msg)
    (hq : s.queues q = some queue) (hid : m.id = msg.id)
    (hnone : m.result = none)
    (hl : other.lists = (queue.setMsgList (queue.sendMsgs ++ [m]) .sendMessage).lists)
    (ha : other.timeout = true → other.pendingTimers ≠ []) :
    Inv none ((s.setQueue q (some other)).setResult r (some { res with callbackMsg := none })) := by
  have hsound := h.result r res hr
  have hcount := h.counted r
  simp only [State.Counted, hr] at hcount
  have howner : s.timeoutOwner r = if res.timeout then some () else none := by
    rw [State.timeoutOwner, hr, Option.bind_some]
  have hclear : Inv m.result (s.setResult r (some { res with callbackMsg := none })) := by
    rw [hnone]
    refine h.setResult hr rfl (fun _ h => by cases h) ?_ (fun _ _ => Iff.rfl) (fun _ => rfl) ?_
      ⟨hsound.unread, hsound.timeout, (fun _ h => by cases h)⟩ (fun _ => ?_) (fun _ _ => rfl)
      (fun hs => (hcount.2.2.1 hs).1) fun _ => rfl
    · rw [State.recvOwner, hr]
      rfl
    · show Linked (fun _ => s.timeouts)
        (Function.update s.timeoutOwner r (if res.timeout then some () else none))
      rw [← howner, Function.update_eq_self]
      exact h.pending
    · exact ⟨(h.held r res hr (fun h => by cases h)).held, (h.held r res hr (fun h => by cases h)).gone⟩
  have hin : m.id ∈ s.msgLists (.result r) := by
    rw [State.msgLists, hr, Option.bind_some, hcb, hid]
    exact List.mem_singleton_self _
  refine Inv.add (s := s.setResult r (some { res with callbackMsg := none })) .sendMessage hclear hq
    (fun c hc => ?_) (h.freshMsg _ _ hin) (fun hk => hnone) (fun r' hr' => ?_) hl ha
  · rw [msgLists_setResult] at hc
    by_cases hcr : c = .result r
    · subst hcr
      rw [Function.update_self] at hc
      cases hc
    · rw [Function.update_of_ne hcr] at hc
      exact hcr (h.messages.unique _ _ _ hc hin)
  · rw [hnone] at hr'
    cases hr'

/-! ## Queues and threads -/

theorem newQueue (h : Inv none s) {thread : ℕ} (ht : s.queueOf thread = none) {n : ℕ}
    (hn : s.next < n) :
    Inv none { (s.setQueue s.next (some Queue.new)) with
      queueOf := Function.update s.queueOf thread (some s.next)
      next := n } := by
  have hnone : s.queues s.next = none := h.freshQueue s.next (Nat.le_refl _)
  have hnew := @Inv.setQueue _ s.next Queue.new none none (h.next (Nat.le_succ s.next))
    (Nat.lt_succ_self _) (h.sending.reorder ?_) (h.receiving.reorder ?_)
    (h.messages.shrink List.nil_subperm) (fun _ h => by cases h) ⟨(fun _ h => by cases h), (fun h => by cases h)⟩ (fun _ h => by cases h) (fun _ h => by cases h) h.held
  have hnew' := hnew.next (n := n) hn
  have hlists : State.threadLists { (s.setQueue s.next (some Queue.new)) with
      queueOf := Function.update s.queueOf thread (some s.next)
      next := n } = Function.update s.threadLists (some thread) [s.next] := by
    funext c
    cases c with
    | none => rfl
    | some t =>
      by_cases htt : t = thread
      · subst htt
        simp only [State.threadLists, Function.update_self, Option.toList]
      · rw [Function.update_of_ne (by simpa using htt)]
        simp only [State.threadLists, Function.update_of_ne htt]
  have hout : ∀ c, s.next ∉ s.threadLists c := fun c hc => h.live c _ hc hnone
  refine { hnew' with threads := hlists ▸ h.threads.insert hout ?_, live := fun c q hq => ?_ }
  · rw [State.threadLists, ht]
    exact List.Subperm.refl _
  · rw [hlists] at hq
    by_cases hq' : q = s.next
    · subst hq'
      show (s.setQueue s.next (some Queue.new)).queues s.next ≠ none
      rw [State.setQueue_self]
      exact Option.some_ne_none _
    · show (s.setQueue s.next (some Queue.new)).queues q ≠ none
      rw [State.setQueue_of_ne hq']
      by_cases hc : c = some thread
      · subst hc
        rw [Function.update_self] at hq
        exact (hq' (List.mem_singleton.mp hq)).elim
      · rw [Function.update_of_ne hc] at hq
        exact h.live c q hq
  · show [].Perm (State.sendLists _ _)
    rw [State.sendLists, hnone]
    rfl
  · rw [State.recvLists, hnone]
    rfl

theorem orphan (h : Inv none s) {thread : ℕ} (ht : s.queueOf thread = some q) :
    Inv none { s with
      queueOf := Function.update s.queueOf thread none
      orphans := q :: s.orphans } := by
  have hlists : State.threadLists { s with
      queueOf := Function.update s.queueOf thread none
      orphans := q :: s.orphans } =
      Function.update (Function.update s.threadLists (some thread) []) none (q :: s.orphans) := by
    funext c
    cases c with
    | none => rw [Function.update_self]; rfl
    | some t =>
      rw [Function.update_of_ne (by simp)]
      by_cases htt : t = thread
      · subst htt
        simp only [State.threadLists, Function.update_self, Option.toList]
      · rw [Function.update_of_ne (by simpa using htt)]
        simp only [State.threadLists, Function.update_of_ne htt]
  have hmem : s.threadLists (some thread) = [q] := by rw [State.threadLists, ht, Option.toList]
  refine { h with
    threads := hlists ▸ h.threads.move (a := q) (fun h => by cases h) (hmem ▸ List.Perm.refl _) (List.Perm.refl _)
    live := fun c i hi => ?_ }
  rw [hlists] at hi
  have hq : s.queues q ≠ none := h.live (some thread) q (hmem ▸ List.mem_singleton_self q)
  cases c with
  | none =>
    rw [Function.update_self] at hi
    cases List.mem_cons.mp hi with
    | inl hi => exact hi ▸ hq
    | inr hi => exact h.live none i hi
  | some t =>
    rw [Function.update_of_ne (by simp)] at hi
    by_cases htt : t = thread
    · subst htt
      rw [Function.update_self] at hi
      cases hi
    · rw [Function.update_of_ne (by simpa using htt)] at hi
      exact h.live (some t) i hi

end Inv

end Wine.Queues
