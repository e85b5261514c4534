import Nespy.Lib.Runs
import Nespy.Py.Thread

/-!
# Py — the data of an event

The data of `Thread.post` does not go through the queue with its event: it waits in the slot of the
thread, and the thread clears the slot after each callback.  So an event arrives with its own data
if no other event for the thread waits when it is posted, and no callback of the thread is at work
(`OneAtATime`); `posted_data_arrives` says that this is enough in runs that create and start threads
and post to threads that were started.

In `posted_data_mixed_up` two events are posted before the first is handled.
-/

open List Option Function

namespace Nespy.Py.Threads

open Nespy.Sys Nespy.Lib

variable {s s' : Threads} {p : ThreadId} {ev : ProcessEvent} {i : ℕ} {h : Handle}
  {stack : List (Frame ThreadId)} {k : Kernel ThreadId}

theorem calls_cons {f : Frame ThreadId} (hstack : k.stack = f :: stack) :
    k.calls = f.calls.toList ++ stack.filterMap Frame.calls := by
  rw [Kernel.calls, hstack]
  cases hf : f.calls <;> simp [hf]

theorem setKernel_fresh_of_suffix (hk : k.stack <:+ s.kernel.stack) :
    (s.setKernel k).fresh = false := by
  simp [hk]

theorem setKernel_fresh_of_push {f : Frame ThreadId} (hf : f.isThread = true)
    (hk : k.stack = f :: stack) (hlen : s.kernel.stack.length ≤ stack.length) :
    (s.setKernel k).fresh = true := by
  have hnot : ¬k.stack <:+ s.kernel.stack := fun hsuffix => by
    have hle := hsuffix.length_le
    rw [hk, length_cons] at hle
    omega
  rw [hk] at hnot
  simp [hnot, hk, hf]

theorem fresh_of_atProgram (hprog : s.atProgram = true) : s.fresh = false := by
  simp only [atProgram, Bool.and_eq_true, Bool.not_eq_true'] at hprog
  exact hprog.1

/-- A method is called when Python code has control. -/
theorem of_withHandle {f : Handle → Option (Threads × List ThreadEvent)}
    {r : Threads × List ThreadEvent} (hr : s.withHandle i f = some r) :
    s.atProgram = true ∧ ∃ h, s.handles[i]? = some h ∧ f h = some r := by
  obtain ⟨hprog, hs⟩ := ite_none_right_eq_some.mp hr
  exact ⟨hprog, bind_eq_some_iff.mp hs⟩

/-- `process_post` into a full queue does nothing. -/
theorem processPost_full (hfull : s.kernel.events.length = processConfNumevents) (p : ThreadId)
    (ev : ProcessEvent) (post : Post) : s.processPost p ev post = s.setKernel s.kernel := by
  rw [Threads.processPost, Kernel.processPost, if_pos hfull, if_pos hfull]
  rfl

theorem processPost_room (hroom : s.kernel.events.length ≠ processConfNumevents) (p : ThreadId)
    (ev : ProcessEvent) (post : Post) : s.processPost p ev post =
      { s.setKernel { s.kernel with events := s.kernel.events ++ [(ev, some p)] } with
        posts := s.posts ++ [post] } := by
  rw [Threads.processPost, Kernel.processPost, if_neg hroom, if_neg hroom]

/-- Threads are created and started, and events are posted to threads that were started. -/
def OnlyPosts (s : Threads) : ThreadInput → Prop
  | .delete _ => False
  | .post i _ _ => ∀ h ∈ s.handles[i]?, s.kernel.state h.id ≠ .none
  | .create .. | .start _ | .run | .ret | .throw _ | .go => True

/-- An event, which is not the one that ends the thread, is posted when none for the thread waits in
the queue and the thread is not being called. -/
def OneAtATime (s : Threads) : ThreadInput → Prop
  | .post i event _ => (∀ n ∈ (mpObjGetInt event).toOption, UInt8.ofInt n ≠ processEventExit) ∧
      ∀ h ∈ s.handles[i]?, (∀ e ∈ s.kernel.events, e.2 ≠ some h.id) ∧ h.id ∉ s.kernel.calls
  | .create .. | .start _ | .delete _ | .run | .ret | .throw _ | .go => True

/-- The threads whose callbacks are at work. -/
def busy (s : Threads) : List ThreadId :=
  (if s.fresh then s.kernel.stack.tail else s.kernel.stack).filterMap Frame.calls

/-- The frames when no thread exits. -/
def PostFrame : Frame ThreadId → Prop
  | .callProcess _ ev => ev ≠ processEventExit
  | .processPostSynch _ => True
  | _ => False

/-- What every step keeps, as long as the posts wait for their turn. -/
structure PostInv (s : Threads) : Prop where
  poll : s.kernel.pollRequested = false
  frames : ∀ f ∈ s.kernel.stack, PostFrame f
  used : ∀ h ∈ s.handles, (s.thread h.id).isUsed = true ∧ (s.thread h.id).id = h.id
  events : ∀ e ∈ s.kernel.events, ∃ p, e.2 = some p ∧ e.1 ≠ processEventExit ∧
    (s.thread p).isUsed = true
  one : (s.kernel.events.map Prod.snd).Nodup
  /-- The data of an event that waits is in the slot. -/
  data :
    List.Forall₂ (fun e post => ∀ p ∈ e.2, (s.thread p).data = post.data) s.kernel.events s.posts
  busy : ∀ p ∈ s.busy, ∀ e ∈ s.kernel.events, e.2 ≠ some p
  /-- A thread that has not begun was called for an event from the queue, or is just being
  started. -/
  top : s.fresh = true → ∃ p ev stack, s.kernel.stack = .callProcess p ev :: stack ∧
    ((∃ post, s.arrived = some post ∧ (s.thread p).data = post.data ∧
      ∀ e ∈ s.kernel.events, e.2 ≠ some p) ∨
      s.waiting p = false)

/-- The part of it about the events `es` that wait. -/
structure Queued (thread : ThreadId → ThreadObj) (handles : List Handle) (posts : List Post)
    (es : List (ProcessEvent × Option ThreadId)) : Prop where
  used : ∀ h ∈ handles, (thread h.id).isUsed = true ∧ (thread h.id).id = h.id
  events : ∀ e ∈ es, ∃ p, e.2 = some p ∧ e.1 ≠ processEventExit ∧ (thread p).isUsed = true
  one : (es.map Prod.snd).Nodup
  data : List.Forall₂ (fun e post => ∀ p ∈ e.2, (thread p).data = post.data) es posts

/-! ### The methods -/

theorem busy_of_not_fresh (hf : s.fresh = false) : s.busy = s.kernel.calls := by
  simp [busy, hf, Kernel.calls]

theorem busy_of_fresh (hf : s.fresh = true) {f : Frame ThreadId}
    (hstack : s.kernel.stack = f :: stack) :
    s.busy = stack.filterMap Frame.calls := by
  simp [busy, hf, hstack]

/-- The invariant where the thread on top has begun. -/
theorem postInv_of_not_fresh (hf : s.fresh = false) (poll : s.kernel.pollRequested = false)
    (frames : ∀ f ∈ s.kernel.stack, PostFrame f)
    (hq : Queued s.thread s.handles s.posts s.kernel.events)
    (hbusy : ∀ p ∈ s.kernel.calls, ∀ e ∈ s.kernel.events, e.2 ≠ some p) : PostInv s := by
  refine ⟨poll, frames, hq.used, hq.events, hq.one, hq.data, ?_, fun ht => ?_⟩
  · rw [busy_of_not_fresh hf]
    exact hbusy
  · rw [hf] at ht
    cases ht

/-- The invariant where the thread on top has not begun. -/
theorem postInv_of_fresh (hf : s.fresh = true)
    (hstack : s.kernel.stack = .callProcess p ev :: stack)
    (hev : ev ≠ processEventExit) (poll : s.kernel.pollRequested = false)
    (frames : ∀ f ∈ stack, PostFrame f) (hq : Queued s.thread s.handles s.posts s.kernel.events)
    (hbusy : ∀ p ∈ stack.filterMap Frame.calls, ∀ e ∈ s.kernel.events, e.2 ≠ some p)
    (htop : (∃ post, s.arrived = some post ∧ (s.thread p).data = post.data ∧
      ∀ e ∈ s.kernel.events, e.2 ≠ some p) ∨
      s.waiting p = false) : PostInv s := by
  refine ⟨poll, ?_, hq.used, hq.events, hq.one, hq.data, ?_, fun _ => ⟨p, ev, stack, hstack, htop⟩⟩
  · rw [hstack]
    exact forall_mem_cons.mpr ⟨hev, frames⟩
  · rw [busy_of_fresh hf hstack]
    exact hbusy

/-- `call_process` calls the thread, or does nothing. -/
theorem callProcess_cases (k : Kernel ThreadId) (p : ThreadId) (ev : ProcessEvent) :
    k.callProcess p ev = k ∨ (k.callProcess p ev).stack = .callProcess p ev :: k.stack ∧
      (k.callProcess p ev).events = k.events ∧
        (k.callProcess p ev).pollRequested = k.pollRequested := by
  rw [Kernel.callProcess]
  split
  · exact .inr ⟨rfl, rfl, rfl⟩
  · exact .inl rfl

/-- A thread is called, from a kernel that differs from that of `s` in nothing else than `k`
says. -/
theorem postInv_call (hkernel : s'.kernel = k.callProcess p ev)
    (hfresh : s'.fresh = (s.setKernel s'.kernel).fresh)
    (hsame : (s.setKernel k).fresh = false) (hlen : s.kernel.stack.length ≤ k.stack.length)
    (hev : ev ≠ processEventExit) (poll : k.pollRequested = false)
    (frames : ∀ f ∈ k.stack, PostFrame f) (hq : Queued s'.thread s'.handles s'.posts k.events)
    (hbusy : ∀ p ∈ k.calls, ∀ e ∈ k.events, e.2 ≠ some p)
    (htop : (∃ post, s'.arrived = some post ∧ (s'.thread p).data = post.data ∧
      ∀ e ∈ k.events, e.2 ≠ some p) ∨
      s'.waiting p = false) : PostInv s' := by
  rcases callProcess_cases k p ev with hcall | ⟨hstack, hevents, hpoll⟩
  · rw [hcall] at hkernel
    rw [hkernel] at hfresh
    rw [← hkernel] at poll frames hq hbusy
    exact postInv_of_not_fresh (hfresh.trans hsame) poll frames hq hbusy
  · rw [← hkernel] at hstack hevents hpoll
    rw [← hevents] at hq hbusy htop
    refine postInv_of_fresh ?_ hstack hev (hpoll.trans poll) frames hq hbusy htop
    rw [hfresh]
    exact setKernel_fresh_of_push rfl hstack hlen

section

variable (hi : PostInv s)

include hi

theorem PostInv.queued : Queued s.thread s.handles s.posts s.kernel.events :=
  ⟨hi.used, hi.events, hi.one, hi.data⟩

/-- The thread on top yields, at its first wait or not. -/
theorem PostInv.yield (hstack : s.kernel.stack = .callProcess p ev :: stack)
    (waiting : ThreadId → Bool)
    (hs' : threadRet { s with waiting := waiting } false = some s') : PostInv s' := by
  have hev : ev ≠ processEventExit := hi.frames (.callProcess p ev) (hstack ▸ mem_cons_self)
  have hret :
      s.kernel.ret false = some (Kernel.setState { s.kernel with stack := stack } p .running) := by
    simp only [Kernel.ret, hstack]
    exact if_neg (by simp [hev])
  rw [threadRet, hret] at hs'
  cases hs'
  have hsuffix : stack <:+ s.kernel.stack := hstack ▸ suffix_cons ..
  refine postInv_of_not_fresh (setKernel_fresh_of_suffix hsuffix) hi.poll
    (fun f hf => hi.frames f (hsuffix.subset hf)) hi.queued fun q hq => hi.busy q ?_
  cases hf : s.fresh with
  | true =>
    rw [busy_of_fresh hf hstack]
    exact hq
  | false =>
    rw [busy_of_not_fresh hf, calls_cons hstack]
    exact mem_cons_of_mem _ hq

variable (hf : s.fresh = false)

include hf

theorem PostInv.of_calls : ∀ p ∈ s.kernel.calls, ∀ e ∈ s.kernel.events, e.2 ≠ some p :=
  busy_of_not_fresh hf ▸ hi.busy

/-- The data of one slot changes, for which no event waits. -/
theorem PostInv.setThread {obj : ThreadObj} (hused : (s.thread p).isUsed = true → obj.isUsed = true)
    (hid : (s.thread p).id = p → obj.id = p) (hp : ∀ e ∈ s.kernel.events, e.2 ≠ some p) :
    PostInv { s with thread := update s.thread p obj } := by
  have hkeep : ∀ q, ((s.thread q).isUsed = true → (update s.thread p obj q).isUsed = true) ∧
      ((s.thread q).id = q → (update s.thread p obj q).id = q) := fun q => by
    by_cases hqp : q = p
    · subst hqp
      simpa using ⟨hused, hid⟩
    · simp [hqp]
  refine postInv_of_not_fresh hf hi.poll hi.frames
    ⟨fun h hh => (hi.used h hh).imp (hkeep _).1 (hkeep _).2, fun e he => ?_,
      hi.one, ?_⟩ (hi.of_calls hf)
  · obtain ⟨q, hq, hev, hu⟩ := hi.events e he
    exact ⟨q, hq, hev, (hkeep q).1 hu⟩
  · refine ((forall₂_and_left _ _).mpr ⟨hp, hi.data⟩).imp ?_
    rintro e post ⟨hne, hdata⟩ q hq
    have hqp : q ≠ p := fun he => hne (he ▸ hq)
    exact (congrArg ThreadObj.data (update_of_ne hqp ..)).trans (hdata q hq)

/-- The kernel stays where it is. -/
theorem PostInv.setKernel_self : PostInv (s.setKernel s.kernel) :=
  postInv_of_not_fresh (setKernel_fresh_of_suffix (suffix_refl _)) hi.poll hi.frames hi.queued
    (hi.of_calls hf)

variable {memory : Bool} {args : CallArgs} {o : List ThreadEvent} {data event : Value}

/-- **Step.**  A new thread. -/
theorem PostInv.create : PostInv (s.nsThreadMakeNew args memory).1 := by
  rw [nsThreadMakeNew]
  split
  · exact hi
  · split
    · exact hi
    · cases hid : s.freeId with
      | none =>
        simp only [threadGetId, hid]
        exact hi
      | some id =>
        have hunused : (s.thread id).isUsed = false := by simpa using find?_some hid
        simp only [threadGetId, hid, map_some]
        split
        · -- no event waits for a slot that is not used
          have hnone : ∀ e ∈ s.kernel.events, e.2 ≠ some id := fun e he hid => by
            obtain ⟨q, hq, -, hu⟩ := hi.events e he
            obtain rfl : q = id := some.inj (hq.symm.trans hid)
            simp [hunused] at hu
          rename_i callback _ _
          have hset : PostInv { s with thread := update s.thread id ⟨callback, id, .none, true⟩ } :=
            hi.setThread hf (fun _ => rfl) (fun _ => rfl) hnone
          exact { hset with used := forall_mem_append.mpr ⟨hset.used,
            forall_mem_singleton.mpr (by simp)⟩ }
        · exact { hi with }

/-- **Step.**  A post. -/
theorem PostInv.post (hh : s.handles[i]? = some h)
    (hev : ∀ n ∈ (mpObjGetInt event).toOption, UInt8.ofInt n ≠ processEventExit)
    (hnone : ∀ e ∈ s.kernel.events, e.2 ≠ some h.id) (hcalls : h.id ∉ s.kernel.calls) :
    PostInv (s.nsThreadPost i h.id event data).1 := by
  have hset : PostInv (s.setData h.id data) := hi.setThread hf id id hnone
  have hid : ((s.setData h.id data).thread h.id).id = h.id := (hset.used h (mem_of_getElem? hh)).2
  rw [nsThreadPost]
  cases hint : mpObjGetInt event with
  | error e => exact hset
  | ok n =>
    dsimp only
    rw [hid]
    by_cases hfull : s.kernel.events.length = processConfNumevents
    · rw [processPost_full (s := s.setData h.id data) hfull]
      exact hset.setKernel_self hf
    · rw [processPost_room (s := s.setData h.id data) hfull]
      have hdata : ((s.setData h.id data).thread h.id).data = data := by simp [setData]
      refine postInv_of_not_fresh (setKernel_fresh_of_suffix (suffix_refl _)) hset.poll hset.frames
        ⟨hset.used, forall_mem_append.mpr ⟨hset.events, forall_mem_singleton.mpr ?_⟩, ?_, ?_⟩
        fun q hq => forall_mem_append.mpr ⟨hi.of_calls hf q hq, forall_mem_singleton.mpr ?_⟩
      · exact ⟨h.id, rfl, hev n (by rw [hint]; rfl), (hset.used h (mem_of_getElem? hh)).1⟩
      · show ((s.kernel.events ++ [(UInt8.ofInt n, some h.id)]).map Prod.snd).Nodup
        rw [map_append, map_singleton]
        refine List.Nodup.append hi.one (nodup_singleton _) ?_
        rw [disjoint_singleton]
        exact fun hmem => by
          obtain ⟨e, he, heq⟩ := mem_map.mp hmem
          exact hnone e he heq
      · refine rel_append hset.data (.cons (fun q hq => ?_) .nil)
        obtain rfl : h.id = q := some.inj hq
        exact hdata
      · rintro ⟨⟩
        exact hcalls hq

/-- **Step.**  A thread is started. -/
theorem PostInv.start (hs' : s.nsThreadStart p = some s') : PostInv s' := by
  obtain ⟨k, hk, rfl⟩ := map_eq_some_iff.mp hs'
  rw [Kernel.processStart] at hk
  cases hsearch : s.kernel.search p with
  | none =>
    rw [hsearch] at hk
    cases hk
  | some found =>
    rw [hsearch] at hk
    cases found with
    | some q =>
      cases hk
      exact hi.setKernel_self hf
    | none =>
      cases hk
      refine postInv_call rfl rfl ?_ (Nat.le_succ _) (by decide) hi.poll
        (forall_mem_cons.mpr ⟨trivial, hi.frames⟩) hi.queued (hi.of_calls hf) (.inr ?_)
      · simp [Kernel.push, Frame.isThread]
      · exact update_self ..

/-- **Step.**  `process_run`. -/
theorem PostInv.run : PostInv s.nsProcessRun := by
  have hrun : s.kernel.processRun = s.kernel.doEvent := if_neg (by simp [hi.poll])
  cases hevents : s.kernel.events with
  | nil =>
    have hkernel : s.kernel.doEvent = s.kernel := by rw [Kernel.doEvent, hevents]
    have hposts : s.posts = [] := by
      have hdata := hi.data
      rw [hevents] at hdata
      exact forall₂_nil_left_iff.mp hdata
    have hself : s.nsProcessRun = s.setKernel s.kernel := by
      rw [nsProcessRun, hrun, hkernel]
      simp [hposts]
    rw [hself]
    exact hi.setKernel_self hf
  | cons e events =>
    obtain ⟨ev, receiver⟩ := e
    obtain ⟨p, hp, hev, -⟩ := hi.events (ev, receiver) (hevents ▸ mem_cons_self)
    obtain rfl : receiver = some p := hp
    have hone := hi.one
    have hdata := hi.data
    rw [hevents] at hone hdata
    obtain ⟨post, posts, hpost, hrest, hposts⟩ := forall₂_cons_left_iff.mp hdata
    obtain ⟨hfirst, hone⟩ := nodup_cons.mp hone
    generalize hg : (if ev = processEventInit then
        Kernel.setState { s.kernel with events := events } p .running
      else { s.kernel with events := events } : Kernel ThreadId) = g
    have hkernel : s.nsProcessRun.kernel = g.callProcess p ev := by
      show s.kernel.processRun = _
      rw [hrun, Kernel.doEvent, hevents, ← hg]
    obtain rfl : g.events = events := by rw [← hg]; split <;> rfl
    have hgstack : g.stack = s.kernel.stack := by rw [← hg]; split <;> rfl
    have hgpoll : g.pollRequested = s.kernel.pollRequested := by rw [← hg]; split <;> rfl
    have hsub : ∀ e ∈ g.events, e ∈ s.kernel.events := fun e he => hevents ▸ mem_cons_of_mem _ he
    refine postInv_call hkernel rfl ?_ (by rw [hgstack]) hev (hgpoll.trans hi.poll) ?_
      ⟨hi.used, ?_, ?_, ?_⟩ ?_ (.inl ⟨post, ?_, ?_, ?_⟩)
    · exact setKernel_fresh_of_suffix (by rw [hgstack])
    · rw [hgstack]
      exact hi.frames
    · exact fun e he => hi.events e (hsub e he)
    · exact hone
    · show List.Forall₂ _ g.events (s.posts.drop 1)
      rw [hposts]
      exact hrest
    · rw [Kernel.calls, hgstack]
      exact fun q hq e he => hi.of_calls hf q hq e (hsub e he)
    · show s.posts.head? = some post
      rw [hposts]
      rfl
    · exact hpost p rfl
    · exact fun e he hep => hfirst (mem_map.mpr ⟨e, he, hep⟩)

theorem PostInv.callbackRet (hs' : s.callbackRet = some s') : PostInv s' := by
  rw [Threads.callbackRet] at hs'
  split at hs'
  · rename_i p ev stack hstack
    have hnone : ∀ e ∈ s.kernel.events, e.2 ≠ some p :=
      hi.of_calls hf p (by rw [calls_cons hstack]; exact mem_cons_self)
    have hset : PostInv (s.setData p .none) := hi.setThread hf id id hnone
    exact hset.yield hstack s.waiting hs'
  · cases hs'

/-- What is left of the stack when a callback raises was there before. -/
theorem PostInv.callbackThrow {depth : ℕ} (hs' : s.callbackThrow depth = some s') : PostInv s' := by
  obtain ⟨-, hs'⟩ := ite_none_right_eq_some.mp hs'
  cases hs'
  have hsuffix := drop_suffix (depth + 1) s.kernel.stack
  exact postInv_of_not_fresh (setKernel_fresh_of_suffix hsuffix) hi.poll
    (fun f hf => hi.frames f (hsuffix.subset hf))
    hi.queued fun q hq => hi.of_calls hf q (hsuffix.sublist.filterMap _ |>.subset hq)

end

/-- An event of the program: a callback for an event that was posted has the data that was posted
with it. -/
def GoodCallback : ThreadEvent → Prop
  | .raised _ => True
  | .callback _ _ _ data posted => ∀ post ∈ posted, data = post.data

theorem makeNew_goodCallback : ∀ e ∈ (s.nsThreadMakeNew args memory).2, GoodCallback e := by
  intro e he
  rw [nsThreadMakeNew] at he
  split at he
  · exact mem_singleton.mp he ▸ trivial
  · split at he
    · exact mem_singleton.mp he ▸ trivial
    · split at he
      · exact mem_singleton.mp he ▸ trivial
      · split at he
        · cases he
        · exact mem_singleton.mp he ▸ trivial

theorem post_goodCallback : ∀ e ∈ (s.nsThreadPost i p event data).2, GoodCallback e := by
  intro e he
  rw [nsThreadPost] at he
  split at he
  · exact mem_singleton.mp he ▸ trivial
  · cases he

/-- The thread on top begins. -/
theorem PostInv.nsProcessThread (hi : PostInv s) (hf : s.fresh = true)
    (hstack : s.kernel.stack = .callProcess p ev :: stack)
    (hs' : s.nsProcessThread p ev = some (s', o)) :
    PostInv s' ∧ ∀ e ∈ o, GoodCallback e := by
  have hev : ev ≠ processEventExit := hi.frames (.callProcess p ev) (hstack ▸ mem_cons_self)
  obtain ⟨q, ev', stack', hstack', htop⟩ := hi.top hf
  obtain ⟨hcons, -⟩ := cons.inj (hstack.symm.trans hstack')
  obtain ⟨rfl, -⟩ := Frame.callProcess.inj hcons
  rw [Threads.nsProcessThread] at hs'
  cases hw : s.waiting p with
  | false =>
    simp only [hw] at hs'
    obtain ⟨s₁, hret, hpair⟩ := map_eq_some_iff.mp hs'
    cases hpair
    exact ⟨hi.yield hstack _ hret, by simp⟩
  | true =>
    obtain ⟨post, harrived, hdata, hnone⟩ := htop.resolve_right (by simp [hw])
    simp only [hw, Bool.not_true, Bool.false_eq_true, if_false, if_pos hev] at hs'
    split at hs'
    · cases hs'
      constructor
      · refine postInv_of_not_fresh rfl hi.poll hi.frames hi.queued fun q hq => ?_
        -- the thread joins those whose callbacks are at work
        have hcalls : s.kernel.calls = p :: stack.filterMap Frame.calls := calls_cons hstack
        rcases mem_cons.mp (hcalls ▸ hq) with rfl | hq
        · exact hnone
        · exact hi.busy q (by rw [busy_of_fresh hf hstack]; exact hq)
      · intro e he
        rw [mem_singleton.mp he]
        intro post' hpost'
        rw [harrived] at hpost'
        cases hpost'
        exact hdata
    · obtain ⟨s₁, hret, hpair⟩ := map_eq_some_iff.mp hs'
      cases hpair
      exact ⟨hi.yield hstack s.waiting hret, by simp⟩

/-- The C code goes on. -/
theorem PostInv.go (hi : PostInv s) (hprog : s.atProgram = false)
    (hs' : s.go = some (s', o)) : PostInv s' ∧ ∀ e ∈ o, GoodCallback e := by
  rw [Threads.go] at hs'
  cases hf : s.fresh with
  | true =>
    obtain ⟨p, ev, stack, hstack, -⟩ := hi.top hf
    simp only [hf, hstack] at hs'
    exact hi.nsProcessThread hf hstack hs'
  | false =>
    simp only [hf] at hs'
    obtain ⟨k, hgo, hpair⟩ := map_eq_some_iff.mp hs'
    cases hpair
    refine ⟨?_, by simp⟩
    -- the frame on top is that of `process_post_synch`
    cases hstack : s.kernel.stack with
    | nil => simp [hf, hstack] at hprog
    | cons f stack =>
      have hframe := hi.frames f (hstack ▸ mem_cons_self)
      cases f with
      | callProcess p ev => simp [hf, hstack, Frame.isThread] at hprog
      | processPostSynch caller =>
        simp only [Kernel.go, hstack] at hgo
        cases hgo
        have hsuffix : stack <:+ s.kernel.stack := hstack ▸ suffix_cons ..
        refine postInv_of_not_fresh (setKernel_fresh_of_suffix hsuffix) hi.poll
          (fun f hf => hi.frames f (hsuffix.subset hf)) hi.queued fun q hq => ?_
        have hcalls : s.kernel.calls = stack.filterMap Frame.calls := calls_cons hstack
        exact hi.of_calls hf q (hcalls ▸ hq)
      | _ => exact hframe.elim

/-! ### Runs -/

instance : ∀ input, Decidable (s.OnlyPosts input)
  | .delete _ => .isFalse id
  | .post i _ _ => inferInstanceAs (Decidable (∀ h ∈ s.handles[i]?, s.kernel.state h.id ≠ .none))
  | .create .. | .start _ | .run | .ret | .throw _ | .go => .isTrue trivial

instance : ∀ input, Decidable (s.OneAtATime input)
  | .post i event _ => inferInstanceAs (Decidable ((∀ n ∈ (mpObjGetInt event).toOption, _) ∧
      ∀ h ∈ s.handles[i]?, (∀ e ∈ s.kernel.events, _) ∧ _))
  | .create .. | .start _ | .delete _ | .run | .ret | .throw _ | .go => .isTrue trivial

/-- **One step.** -/
theorem PostInv.step (hi : PostInv s) {input : ThreadInput} (hposts : s.OnlyPosts input)
    (hone : s.OneAtATime input) (hstep : s.step input = some (s', o)) :
    PostInv s' ∧ ∀ e ∈ o, GoodCallback e := by
  cases input with
  | create args memory =>
    obtain ⟨hprog, hs⟩ := ite_none_right_eq_some.mp hstep
    obtain ⟨rfl, rfl⟩ := Prod.mk.inj (some.inj hs)
    exact ⟨hi.create (fresh_of_atProgram hprog), makeNew_goodCallback⟩
  | start i =>
    obtain ⟨hprog, h, hh, hs⟩ := of_withHandle hstep
    obtain ⟨s₁, hstart, hpair⟩ := map_eq_some_iff.mp hs
    cases hpair
    exact ⟨hi.start (fresh_of_atProgram hprog) hstart, by simp⟩
  | post i event data =>
    obtain ⟨hprog, h, hh, hs⟩ := of_withHandle hstep
    obtain ⟨rfl, rfl⟩ := Prod.mk.inj (some.inj hs)
    obtain ⟨hnone, hcalls⟩ := hone.2 h hh
    exact ⟨hi.post (fresh_of_atProgram hprog) hh hone.1 hnone hcalls, post_goodCallback⟩
  | delete i => exact hposts.elim
  | run =>
    obtain ⟨hprog, hs⟩ := ite_none_right_eq_some.mp hstep
    cases hs
    exact ⟨hi.run (fresh_of_atProgram hprog), by simp⟩
  | ret =>
    obtain ⟨⟨hprog, -⟩, hs⟩ := ite_none_right_eq_some.mp hstep
    obtain ⟨s₁, hret, hpair⟩ := map_eq_some_iff.mp hs
    cases hpair
    exact ⟨hi.callbackRet (fresh_of_atProgram hprog) hret, by simp⟩
  | throw depth =>
    obtain ⟨⟨hprog, -⟩, hs⟩ := ite_none_right_eq_some.mp hstep
    obtain ⟨s₁, hthrow, hpair⟩ := map_eq_some_iff.mp hs
    cases hpair
    exact ⟨hi.callbackThrow (fresh_of_atProgram hprog) hthrow, by simp⟩
  | go =>
    obtain ⟨hprog, hs⟩ := ite_none_left_eq_some.mp hstep
    exact hi.go (by simpa using hprog) hs

theorem initial_postInv : PostInv initial :=
  postInv_of_not_fresh rfl rfl nofun ⟨nofun, nofun, nodup_nil, .nil⟩ nofun

/-- **Posted data reaches its own event**, in every run in which a thread is posted to only when no
event waits for it and it is not being called. -/
theorem posted_data_arrives {tr : List (ThreadInput × List ThreadEvent)}
    (hrun : Runs step (fun s input => s.OnlyPosts input ∧ s.OneAtATime input) initial tr s)
    {cb data : Value} {post : Post} (hcallback : .callback p cb ev data (some post) ∈ events tr) :
    data = post.data := by
  have hinv := hrun.invariant PostInv (fun o => ∀ e ∈ o, GoodCallback e)
    (fun {s i s' o} hi hG hstep => hi.step hG.1 hG.2 hstep) initial_postInv
  obtain ⟨io, hio, hmem⟩ := mem_flatMap.mp hcallback
  exact hinv.2 io hio _ hmem post rfl

/-- `Thread(callback=f)`. -/
def newThread : ThreadInput := .create ⟨0, [("callback", .other 1)]⟩ true

/-- The thread of the handle `i` is started, and comes to its wait. -/
def startThread (i : ℕ) : List ThreadInput := [.start i, .go, .go]

/-- An event is posted, handled, and posted again. -/
theorem posted_data_arrives_again :
    ∃ tr s, Runs step (fun s input => s.OnlyPosts input ∧ s.OneAtATime input)
      initial tr s ∧ .callback 0 (.other 1) 0x90 (.int 8) (some ⟨0, .int 8⟩) ∈ events tr ∧
      Value.int 8 = (Post.mk 0 (.int 8)).data := by
  have hrun : (execute step (fun s input => s.OnlyPosts input ∧ s.OneAtATime input) initial
      ([newThread] ++ startThread 0 ++ [.post 0 (.int 0x90) (.int 7), .run, .go, .ret] ++
        [.post 0 (.int 0x90) (.int 8), .run, .go])).map (fun r => events r.2) =
        some [.callback 0 (.other 1) 0x90 (.int 7) (some ⟨0, .int 7⟩),
          .callback 0 (.other 1) 0x90 (.int 8) (some ⟨0, .int 8⟩)] := by
    decide +kernel
  obtain ⟨tr, s, hruns, hevents⟩ := exists_run_of_events hrun
  have hmem : .callback 0 (.other 1) 0x90 (.int 8) (some ⟨0, .int 8⟩) ∈ events tr := by
    rw [hevents]
    simp
  exact ⟨tr, s, hruns, hmem, posted_data_arrives hruns hmem⟩

/-- The first event gets the data of the second, and the second gets `None`. -/
theorem posted_data_mixed_up : ∃ tr s, Runs step OnlyPosts initial tr s ∧
    events tr = [.callback 0 (.other 1) 0x90 (.int 8) (some ⟨0, .int 7⟩),
      .callback 0 (.other 1) 0x91 .none (some ⟨0, .int 8⟩)] := by
  have hrun : (execute step OnlyPosts initial ([newThread] ++ startThread 0 ++
      [.post 0 (.int 0x90) (.int 7), .post 0 (.int 0x91) (.int 8), .run, .go,
        .ret, .run, .go, .ret])).map
        (fun r => events r.2) = some [.callback 0 (.other 1) 0x90 (.int 8) (some ⟨0, .int 7⟩),
          .callback 0 (.other 1) 0x91 .none (some ⟨0, .int 8⟩)] := by
    decide +kernel
  exact exists_run_of_events hrun

end Nespy.Py.Threads
