import Mathlib.Algebra.Group.Int.Defs
import Mathlib.Algebra.GroupWithZero.Nat
import Mathlib.Data.Int.Basic

/-!
# Py — Python objects and arguments

The objects that reach the C code, as far as it looks at them, and `mp_arg_parse_all` of
`py/argcheck.c` for arguments that are all `MP_ARG_KW_ONLY`.  The texts of the exceptions that the
interpreter raises depend on how it is configured, and are left out.
-/

namespace Nespy.Py

/-- An object; `null` is `MP_OBJ_NULL`, which memory that was cleared holds. -/
inductive Value where
  | null
  | none
  | bool (b : Bool)
  | int (n : ℤ)
  | str (s : List UInt8)
  | bytes (s : List UInt8)
  | other (n : ℕ)
  deriving DecidableEq

/-- The exceptions that are raised. -/
inductive PyError where
  | valueError (msg : String)
  | typeError
  | overflowError
  | memoryError
  deriving DecidableEq

/-- A number of a machine word. -/
def mpObjGetInt : Value → Except PyError ℤ
  | .bool b => .ok (if b then 1 else 0)
  | .int n => if -2 ^ 63 ≤ n ∧ n < 2 ^ 63 then .ok n else .error .overflowError
  | _ => .error .typeError

/-- The bytes of a string. -/
def mpObjStrGetStr : Value → Except PyError (List UInt8)
  | .str s => .ok s
  | .bytes s => .ok s
  | _ => .error .typeError

/-- `MP_ARG_OBJ` and `MP_ARG_INT`. -/
inductive ArgKind where
  | obj
  | int

/-- `mp_arg_t`. -/
structure Arg where
  qst : String
  kind : ArgKind
  defval : Value

/-- The arguments of a call: how many have a position, and those that have a keyword. -/
structure CallArgs where
  nArgs : ℕ
  kws : List (String × Value)

namespace CallArgs

variable (call : CallArgs)

/-- `n_args == 0 && n_kw == 0`. -/
def IsEmpty : Prop := call.nArgs = 0 ∧ call.kws = []

instance : Decidable call.IsEmpty := inferInstanceAs (Decidable (_ ∧ _))

/-- The value of one argument. -/
def parseArg (arg : Arg) : Except PyError Value :=
  match call.kws.lookup arg.qst with
  | .none => .ok arg.defval
  | some given =>
    match arg.kind with
    | .obj => .ok given
    | .int => (mpObjGetInt given).map .int

/-- Keyword arguments, with their defaults. -/
def mpArgParseAll (allowed : List Arg) : Except PyError (List Value) :=
  if 0 < call.nArgs then .error .typeError
  else
    (allowed.mapM call.parseArg).bind fun args =>
      let kwsFound := (allowed.filter fun arg => (call.kws.lookup arg.qst).isSome).length
      if kwsFound < call.kws.length then .error .typeError else .ok args

variable {call}

variable {allowed : List Arg} {e : PyError}

theorem mpObjGetInt_error {v : Value} (h : mpObjGetInt v = .error e) : e ≠ .memoryError := by
  rintro rfl
  cases v with
  | int n =>
    rw [mpObjGetInt] at h
    split at h <;> cases h
  | _ => cases h

theorem parseArg_error {arg : Arg} (h : call.parseArg arg = .error e) : e ≠ .memoryError := by
  rw [parseArg] at h
  split at h
  · cases h
  · rename_i given _
    split at h
    · cases h
    · cases hint : mpObjGetInt given with
      | error e' =>
        rw [hint] at h
        obtain rfl : e' = e := Except.error.inj h
        exact mpObjGetInt_error hint
      | ok n =>
        rw [hint] at h
        cases h

theorem mapM_parseArg_error (h : allowed.mapM call.parseArg = .error e) : e ≠ .memoryError := by
  induction allowed with
  | nil => cases h
  | cons arg allowed ih =>
    rw [List.mapM_cons] at h
    cases harg : call.parseArg arg with
    | error e' =>
      rw [harg] at h
      obtain rfl : e' = e := Except.error.inj h
      exact parseArg_error harg
    | ok v =>
      cases hrest : allowed.mapM call.parseArg with
      | error e' =>
        rw [harg, hrest] at h
        obtain rfl : e' = e := Except.error.inj h
        exact ih hrest
      | ok vs =>
        rw [harg, hrest] at h
        cases h

/-- No memory is needed for the arguments. -/
theorem mpArgParseAll_error (h : call.mpArgParseAll allowed = .error e) : e ≠ .memoryError := by
  rw [mpArgParseAll] at h
  split at h
  · exact Except.error.inj h ▸ by simp
  · cases hmap : allowed.mapM call.parseArg with
    | error e' =>
      rw [hmap] at h
      obtain rfl : e' = e := Except.error.inj h
      exact mapM_parseArg_error hmap
    | ok args =>
      rw [hmap] at h
      simp only [Except.bind] at h
      split_ifs at h
      exact Except.error.inj h ▸ by simp

end CallArgs

end Nespy.Py
