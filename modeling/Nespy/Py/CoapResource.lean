import Nespy.Lib.Runs
import Nespy.Py.Args

/-!
# Py — CoAP resources

The constructor of `lib/py/obj-coap.c`.  An object is built in memory that the collector has cleared
(`gc_alloc`), and is copied into its slot at the end.

The search for a slot looks for one that is not `is_initialized`, and nothing ever sets
`is_initialized`: every object gets the slot `0`.  The counter is taken down before the arguments
are looked at, and is not put back when they are refused.  So the objects are distinct and a refusal
leaves no trace exactly in those runs where at most one object is built and no argument is refused
(`resources_distinct_iff`).
-/

open Function

namespace Nespy.Py

open Nespy.Lib

/-- The slots for resources. -/
@[simp] def coapResObjAllNum : ℕ := 2

/-- `coap_resource_t`.  A handler is the one of that kind in this entry of `res_handler`. -/
structure CoapResource where
  flags : ℕ
  attributes : List UInt8
  getHandler : Option ℕ
  postHandler : Option ℕ
  putHandler : Option ℕ
  deleteHandler : Option ℕ
  periodic : Option ℕ
  deriving DecidableEq

/-- `ns_coap_res_obj_t`. -/
structure CoapResObj where
  getObj : Value
  postObj : Value
  putObj : Value
  deleteObj : Value
  clientMsgCallbackObj : Value
  obsNotifCallbackObj : Value
  periodicCallbackObj : Value
  id : ℕ
  res : CoapResource
  serverActivated : Bool
  isInitialized : Bool
  deriving DecidableEq

/-- What `m_new_obj` returns, and what the static objects are at first: zeros. -/
def CoapResObj.zero : CoapResObj :=
  ⟨.null, .null, .null, .null, .null, .null, .null, 0,
    ⟨0, [], none, none, none, none, none⟩, false, false⟩

/-- `ns_coap_res_obj_all_t`. -/
structure CoapResObjAll where
  res : Fin coapResObjAllNum → CoapResObj
  remain : UInt8

/-- The static variables, and the objects that were built, the last one first. -/
structure CoapResources where
  coapResObjAll : CoapResObjAll
  isCoapResourceInit : Bool
  /-- The `period` of the periodic resources of `res_handler`. -/
  period : Fin coapResObjAllNum → UInt32
  made : List CoapResObj

/-- A call of the constructor, and whether there is memory for an object. -/
structure NewResource where
  args : CallArgs
  memory : Bool

/-! ### The constructor -/

/-- `allowed_args`. -/
def resourceArgs : List Arg :=
  [⟨"attr", .obj, .none⟩, ⟨"get", .obj, .none⟩, ⟨"post", .obj, .none⟩, ⟨"put", .obj, .none⟩,
    ⟨"delete", .obj, .none⟩, ⟨"period", .int, .int 0⟩, ⟨"callback", .obj, .none⟩]

/-- The arguments by name. -/
structure ResourceArgs where
  attr : Value
  get : Value
  post : Value
  put : Value
  delete : Value
  period : Value
  callback : Value

/-- The arguments in the order in which they are declared. -/
def ResourceArgs.ofList (args : List Value) : ResourceArgs :=
  ⟨args.getD 0 .null, args.getD 1 .null, args.getD 2 .null, args.getD 3 .null, args.getD 4 .null,
    args.getD 5 .null, args.getD 6 .null⟩

/-- The member `u_int` of an argument. -/
def Value.uInt : Value → ℤ
  | .int n => n
  | _ => 0

/-- The checks that come before the object is made. -/
def checkArgs (call : CallArgs) : Except PyError ResourceArgs :=
  (call.mpArgParseAll resourceArgs).bind fun args =>
    let args := ResourceArgs.ofList args
    if args.attr = .none then .error (.valueError "ns: can't find coap resource attr arguments")
    else if args.get = .none ∧ args.post = .none ∧ args.put = .none ∧ args.delete = .none then
      .error (.valueError "ns: can't find coap resource method arguments")
    else .ok args

theorem checkArgs_error {call : CallArgs} {e : PyError} (h : checkArgs call = .error e) :
    e ≠ .memoryError := by
  rw [checkArgs] at h
  cases hparse : call.mpArgParseAll resourceArgs with
  | error e' =>
    rw [hparse] at h
    obtain rfl : e' = e := Except.error.inj h
    exact CallArgs.mpArgParseAll_error hparse
  | ok args =>
    rw [hparse] at h
    simp only [Except.bind] at h
    split at h
    · exact Except.error.inj h ▸ by simp
    · split_ifs at h
      exact Except.error.inj h ▸ by simp

/-- The handler of a method, in the entry `id`. -/
def handlerFor (id : ℕ) (method : Value) : Option ℕ := if method ≠ .none then some id else none

/-- The object with its methods. -/
def resourceObj (id : ℕ) (attributes : List UInt8) (args : ResourceArgs) : CoapResObj :=
  { CoapResObj.zero with
    id := id
    getObj := args.get, postObj := args.post, putObj := args.put, deleteObj := args.delete
    res :=
      { flags := 2 ^ 6 ||| 2 ^ 7
        attributes := attributes
        getHandler := handlerFor id args.get
        postHandler := handlerFor id args.post
        putHandler := handlerFor id args.put
        deleteHandler := handlerFor id args.delete
        periodic := none }
    clientMsgCallbackObj := .none }

namespace CoapResources

variable (s : CoapResources)

/-- All slots are cleared, once. -/
def nsCoapResourceInit : CoapResources :=
  let clear (res : CoapResObj) : CoapResObj :=
    { res with
      serverActivated := false, isInitialized := false, getObj := .none,
        postObj := .none, putObj := .none
      deleteObj := .none, clientMsgCallbackObj := .none, obsNotifCallbackObj := .none
      periodicCallbackObj := .none }
  { s with
    coapResObjAll := ⟨fun i => clear (s.coapResObjAll.res i), .ofNat coapResObjAllNum⟩
    isCoapResourceInit := true }

/-- The search of `coap_res_get_id`. -/
def freeId : Option (Fin coapResObjAllNum) :=
  (List.finRange coapResObjAllNum).find? fun i => !(s.coapResObjAll.res i).isInitialized

/-- `coap_res_get_id`; `-1` is `none`. -/
def coapResGetId : Option (Fin coapResObjAllNum × CoapResources) :=
  s.freeId.map fun id =>
    (id, { s with coapResObjAll := { s.coapResObjAll with remain := s.coapResObjAll.remain - 1 } })

/-- The object is put into its slot and returned. -/
def store (id : Fin coapResObjAllNum) (obj : CoapResObj) :
    Except PyError CoapResObj × CoapResources :=
  (.ok obj, { s with
    coapResObjAll := { s.coapResObjAll with res := update s.coapResObjAll.res id obj }
    made := obj :: s.made })

/-- The object is made, and its periodic resource is set. -/
def build (id : Fin coapResObjAllNum) (args : ResourceArgs) :
    Except PyError CoapResObj × CoapResources :=
  match mpObjStrGetStr args.attr with
  | .error e => (.error e, s)
  | .ok attributes =>
    let obj := resourceObj id attributes args
    if args.period.uInt ≠ 0 then
      let s := { s with period := update s.period id (.ofInt args.period.uInt) }
      if args.callback = .none then
        (.error (.valueError "ns: periodic coap resource callback can't be empty"), s)
      else
        s.store id { obj with
          res := { obj.res with periodic := some id }
          periodicCallbackObj := args.callback }
    else s.store id obj

/-- `ns_coap_resource_make_new`. -/
def nsCoapResourceMakeNew (call : NewResource) : Except PyError CoapResObj × CoapResources :=
  if call.args.IsEmpty then (.error (.valueError "ns: invalid arguments"), s)
  else
    let s := if s.isCoapResourceInit then s else s.nsCoapResourceInit
    match s.coapResGetId with
    | none =>
      (.error (.valueError s!"ns: coap periodic resource overflow! max({coapResObjAllNum})"), s)
    | some (id, s) =>
      match checkArgs call.args with
      | .error e => (.error e, s)
      | .ok args => if call.memory then s.build id args else (.error .memoryError, s)

/-- One call of the constructor. -/
def step (call : NewResource) : Option (CoapResources × Except PyError CoapResObj) :=
  some ((s.nsCoapResourceMakeNew call).2, (s.nsCoapResourceMakeNew call).1)

/-- Before the first call. -/
def boot : CoapResources := ⟨⟨fun _ => .zero, 0⟩, false, fun _ => 0, []⟩

/-! ### The slots -/

variable {s} {call : NewResource} (s)

/-- The object that is built is unlike those before it, and a call that is refused, or that comes
when there are as many objects as slots, leaves the slots and the counter as they are. -/
structure Distinct (call : NewResource) : Prop where
  fresh : ∀ obj, (s.nsCoapResourceMakeNew call).1 = .ok obj → obj.id ∉ s.made.map CoapResObj.id
  refused : ∀ e, (s.nsCoapResourceMakeNew call).1 = .error e → e ≠ .memoryError →
    (s.nsCoapResourceMakeNew call).2.coapResObjAll = s.coapResObjAll
  full : coapResObjAllNum ≤ s.made.length →
    (s.nsCoapResourceMakeNew call).2.coapResObjAll = s.coapResObjAll

/-- The checks that come after the object was made. -/
def Complete (args : ResourceArgs) : Prop :=
  (mpObjStrGetStr args.attr).isOk ∧ (args.period.uInt ≠ 0 → args.callback ≠ .none)

/-- There are no arguments at all; or they are not refused, and no object was built before, or there
is no memory for this one and not as many objects as slots. -/
def FirstOnly (call : NewResource) : Prop :=
  call.args.IsEmpty ∨
    ∃ args, checkArgs call.args = .ok args ∧
      (call.memory = false ∧ s.made.length < coapResObjAllNum ∨
        call.memory = true ∧ Complete args ∧ s.made = [])

/-- No slot is `is_initialized`, and every object has the slot `0`. -/
structure Untaken : Prop where
  slots : ∀ i, (s.coapResObjAll.res i).isInitialized = false
  ids : ∀ obj ∈ s.made, obj.id = 0
  before : s.isCoapResourceInit = false → s.coapResObjAll.remain = 0 ∧ s.made = []

/-- The state in which the arguments are looked at. -/
@[simp] def taken : CoapResources :=
  let s := if s.isCoapResourceInit then s else s.nsCoapResourceInit
  { s with coapResObjAll := { s.coapResObjAll with remain := s.coapResObjAll.remain - 1 } }

variable {s}

theorem taken_untaken (h : s.Untaken) : s.taken.Untaken ∧ s.taken.made = s.made ∧
    s.taken.isCoapResourceInit = true := by
  cases hinit : s.isCoapResourceInit with
  | true =>
    have htaken : s.taken = { s with
        coapResObjAll := { s.coapResObjAll with remain := s.coapResObjAll.remain - 1 } } := by
      simp [hinit]
    rw [htaken]
    exact ⟨⟨h.slots, h.ids, by simp [hinit]⟩, rfl, hinit⟩
  | false =>
    have htaken : s.taken = { s.nsCoapResourceInit with
        coapResObjAll := { s.nsCoapResourceInit.coapResObjAll with
          remain := s.nsCoapResourceInit.coapResObjAll.remain - 1 } } := by
      simp [hinit]
    rw [htaken]
    exact ⟨⟨fun _ => rfl, h.ids, fun hf => by cases hf⟩, rfl, rfl⟩

/-- The counter shows that a slot was taken. -/
theorem taken_remain (h : s.Untaken) : s.taken.coapResObjAll.remain ≠ s.coapResObjAll.remain := by
  cases hinit : s.isCoapResourceInit with
  | true =>
    have htaken : s.taken.coapResObjAll.remain = s.coapResObjAll.remain - 1 := by simp [hinit]
    rw [htaken]
    grind
  | false =>
    have htaken : s.taken.coapResObjAll.remain = 1 := by
      simp [hinit, nsCoapResourceInit]
    rw [htaken, (h.before hinit).1]
    decide

theorem freeId_eq (hslots : ∀ i, (s.coapResObjAll.res i).isInitialized = false) :
    s.freeId = some ⟨0, by decide⟩ := by
  have hfirst : (!(s.coapResObjAll.res ⟨0, by decide⟩).isInitialized) = true := by
    rw [hslots, Bool.not_false]
  exact List.find?_cons_of_pos hfirst

/-- Beyond the first check, the slot is the first one. -/
theorem makeNew_eq (h : s.Untaken) (hargs : ¬call.args.IsEmpty) : s.nsCoapResourceMakeNew call =
      match checkArgs call.args with
      | .error e => (.error e, s.taken)
      | .ok args =>
        if call.memory then s.taken.build ⟨0, by decide⟩ args
          else (.error .memoryError, s.taken) := by
  have hid : (if s.isCoapResourceInit then s else s.nsCoapResourceInit).coapResGetId =
      some (⟨0, by decide⟩, s.taken) := by
    rw [coapResGetId, freeId_eq]
    · rfl
    · intro i
      split
      · exact h.slots i
      · rfl
  rw [nsCoapResourceMakeNew, if_neg hargs]
  simp only [hid]

variable {i : Fin coapResObjAllNum} {args : ResourceArgs}

/-- An object with complete arguments is stored; its slot is not marked. -/
theorem build_complete (hargs : Complete args) :
    ∃ obj, (s.build i args).1 = .ok obj ∧ obj.id = i ∧ obj.isInitialized = false ∧
      (s.build i args).2.coapResObjAll.res = update s.coapResObjAll.res i obj ∧
      (s.build i args).2.made = obj :: s.made ∧
      (s.build i args).2.isCoapResourceInit = s.isCoapResourceInit := by
  obtain ⟨hattr, hcallback⟩ := hargs
  cases hstr : mpObjStrGetStr args.attr with
  | error e => simp [hstr, Except.toBool] at hattr
  | ok attributes =>
    by_cases hperiod : args.period.uInt = 0
    · simp only [build, hstr, hperiod, ne_eq, not_true_eq_false, if_false, store]
      exact ⟨_, rfl, rfl, rfl, rfl, rfl, trivial⟩
    · simp only [build, hstr, hperiod, ne_eq, not_false_eq_true, if_true,
        hcallback hperiod, if_false, store]
      exact ⟨_, rfl, rfl, rfl, rfl, rfl, trivial⟩

/-- With arguments that are not, there is an exception, and only a period may have been set. -/
theorem build_incomplete (hargs : ¬Complete args) :
    (∃ e, (s.build i args).1 = .error e ∧ e ≠ .memoryError) ∧
      (s.build i args).2 = { s with period := (s.build i args).2.period } := by
  cases hstr : mpObjStrGetStr args.attr with
  | error e =>
    have he : e ≠ .memoryError := by
      rintro rfl
      cases hattr : args.attr <;> simp [hattr, mpObjStrGetStr] at hstr
    simp only [build, hstr]
    exact ⟨⟨e, rfl, he⟩, trivial⟩
  | ok attributes =>
    have hnot : args.period.uInt ≠ 0 ∧ args.callback = .none := by
      by_contra hcon
      refine hargs ⟨by simp [hstr, Except.toBool], fun hperiod hnone => ?_⟩
      exact hcon ⟨hperiod, hnone⟩
    simp only [build, hstr, hnot.1, hnot.2, ne_eq, not_false_eq_true, if_true]
    exact ⟨⟨_, rfl, by simp⟩, trivial⟩

/-- **One call** keeps every slot unmarked, and the list of the objects follows its result. -/
theorem makeNew_spec (h : s.Untaken) (call : NewResource) :
    (s.nsCoapResourceMakeNew call).2.Untaken ∧
    ((∃ obj, (s.nsCoapResourceMakeNew call).1 = .ok obj ∧
        (s.nsCoapResourceMakeNew call).2.made = obj :: s.made) ∨
      (s.nsCoapResourceMakeNew call).2.made = s.made) := by
  obtain ⟨ht, hmade, hinit⟩ := taken_untaken h
  by_cases hempty : call.args.IsEmpty
  · rw [nsCoapResourceMakeNew, if_pos hempty]
    exact ⟨h, .inr rfl⟩
  · rw [makeNew_eq h hempty]
    split
    · exact ⟨ht, .inr hmade⟩
    · rename_i args hcheck
      split
      · by_cases hargs : Complete args
        · obtain ⟨obj, hobj, hid, hmark, hres, hmade', hinit'⟩ := build_complete hargs
          refine ⟨⟨fun i => ?_, ?_, fun hf => ?_⟩, .inl ⟨obj, hobj, by rw [hmade', hmade]⟩⟩
          · rw [hres]
            by_cases hi : i = ⟨0, by decide⟩
            · rw [hi, update_self, hmark]
            · rw [update_of_ne hi]
              exact ht.slots i
          · rw [hmade']
            exact List.forall_mem_cons.mpr ⟨hid, ht.ids⟩
          · rw [hinit', hinit] at hf
            cases hf
        · rw [(build_incomplete hargs).2]
          exact ⟨⟨ht.slots, ht.ids, ht.before⟩, .inr hmade⟩
      · exact ⟨ht, .inr hmade⟩

/-- In a run, a call is distinct from those before it exactly when it is the first. -/
theorem distinct_iff (h : s.Untaken) : s.Distinct call ↔ s.FirstOnly call := by
  have hused : s.taken.coapResObjAll ≠ s.coapResObjAll := fun hall =>
    taken_remain h (congrArg CoapResObjAll.remain hall)
  by_cases hempty : call.args.IsEmpty
  · have hcall : s.nsCoapResourceMakeNew call = _ := if_pos hempty
    refine ⟨fun _ => .inl hempty, fun _ => ⟨fun obj hobj => ?_, fun _ _ _ => ?_, fun _ => ?_⟩⟩
    · rw [hcall] at hobj
      cases hobj
    · rw [hcall]
    · rw [hcall]
  · have hcall := makeNew_eq h hempty
    constructor
    · intro hd
      refine .inr ?_
      cases hcheck : checkArgs call.args with
      | error e =>
        simp only [hcheck] at hcall
        have hall := hd.refused e (by rw [hcall]) (checkArgs_error hcheck)
        rw [hcall] at hall
        exact (hused hall).elim
      | ok args =>
        refine ⟨args, rfl, ?_⟩
        cases hmem : call.memory with
        | false =>
          simp only [hcheck, hmem] at hcall
          refine .inl ⟨rfl, Nat.lt_of_not_le fun hfull => ?_⟩
          have hall := hd.full hfull
          rw [hcall] at hall
          exact (hused hall).elim
        | true =>
          simp only [hcheck, hmem, if_true] at hcall
          by_cases hargs : Complete args
          · obtain ⟨obj, hobj, hid, -⟩ :=
              build_complete hargs
            refine .inr ⟨rfl, hargs, List.eq_nil_iff_forall_not_mem.mpr fun o ho => ?_⟩
            refine hd.fresh obj (by rw [hcall]; exact hobj) ?_
            exact List.mem_map.mpr ⟨o, ho, (h.ids o ho).trans hid.symm⟩
          · obtain ⟨⟨e, herror, hne⟩, hstate⟩ :=
              build_incomplete hargs
            have hall := hd.refused e (by rw [hcall]; exact herror) hne
            rw [hcall, hstate] at hall
            exact (hused hall).elim
    · rintro (he | ⟨args, hcheck, hargs⟩)
      · exact absurd he hempty
      · simp only [hcheck] at hcall
        rcases hargs with ⟨hmem, hroom⟩ | ⟨hmem, hcomplete, hnone⟩
        · simp only [hmem] at hcall
          refine ⟨fun obj hobj => ?_, fun e he hne => ?_,
            fun hfull => absurd hroom (Nat.not_lt.mpr hfull)⟩
          · rw [hcall] at hobj
            cases hobj
          · rw [hcall] at he
            exact absurd (Except.error.inj he).symm hne
        · simp only [hmem, if_true] at hcall
          obtain ⟨obj, hobj, -⟩ := build_complete hcomplete
          refine ⟨fun obj _ => by simp [hnone], fun e he _ => ?_, fun hfull => ?_⟩
          · rw [hcall, hobj] at he
            cases he
          · simp [hnone] at hfull

theorem boot_untaken : boot.Untaken :=
  ⟨fun _ => rfl, fun _ h => (List.not_mem_nil h).elim, fun _ => ⟨rfl, rfl⟩⟩

/-- **The objects are distinct, and refusals leave no trace, exactly in the runs of such calls**: a
run in which every step is `Distinct` is a run in which every step is `FirstOnly`, and then no two
objects have one `id`. -/
theorem resources_distinct_iff {s' : CoapResources}
    {tr : List (NewResource × Except PyError CoapResObj)} :
    (Runs step Distinct boot tr s' ↔ Runs step FirstOnly boot tr s') ∧
      (Runs step Distinct boot tr s' → (s'.made.map CoapResObj.id).Nodup) := by
  constructor
  · refine runs_congr Untaken (fun {s call s' o} h hstep => ?_) distinct_iff boot_untaken
    cases hstep
    exact (makeNew_spec h call).1
  · intro hrun
    have hinv := hrun.invariant (fun s => s.Untaken ∧ (s.made.map CoapResObj.id).Nodup)
      (fun _ => True) ?_
      ⟨boot_untaken, List.nodup_nil⟩
    · exact hinv.1.2
    · rintro s call s' o ⟨h, hnodup⟩ hd hstep
      cases hstep
      obtain ⟨h', hcall⟩ := makeNew_spec h call
      refine ⟨⟨h', ?_⟩, trivial⟩
      rcases hcall with ⟨obj, hobj, hmade⟩ | hmade
      · rw [hmade]
        exact List.nodup_cons.mpr ⟨hd.fresh obj hobj, hnodup⟩
      · rw [hmade]
        exact hnodup

/-- `CoapResource(attr="hello", get=f)`. -/
def helloResource : NewResource :=
  ⟨⟨0, [("attr", .str [104, 101, 108, 108, 111]), ("get", .other 1)]⟩, true⟩

/-- The same call twice: both objects have the `id` `0`. -/
theorem resources_share_slot : ∃ tr s, Runs step (fun _ _ => True) boot tr s ∧
    s.made.map CoapResObj.id = [0, 0] := by
  have hrun : (execute step (fun _ _ => True) boot [helloResource, helloResource]).map
      (fun r => r.1.made.map CoapResObj.id) = some [0, 0] := by
    decide +kernel
  obtain ⟨r, hr, hids⟩ := exists_run_of_map hrun
  exact ⟨r.2, r.1, hr, hids⟩

end CoapResources

end Nespy.Py
