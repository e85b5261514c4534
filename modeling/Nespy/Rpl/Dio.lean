import Nespy.Sicslowpan.Address

/-!
# Rpl — received DIO messages

`dio_input` of `net/routing/rpl-classic/rpl-icmp6.c`: a DAG information object is read from the
ICMPv6 payload, with defaults for the parameters that only a configuration option carries.  Of the
message those fields are kept that `rpl_process_dio` reads for the DAG, its instance and its
parents; the metric container, the prefixes and the DTSN are only checked for their lengths.

The payload is what is in `uip_buf` behind the ICMPv6 header, up to the end of the buffer, so a read
behind the end of the message has a value.
-/

namespace Nespy.Rpl

open Nespy.Sicslowpan (Ipaddr)

/-- How often the interval is doubled. -/
def rplDioIntervalDoublings : UInt8 := 8

/-- The exponent of the first interval. -/
def rplDioIntervalMin : UInt8 := 12

/-- The redundancy constant. -/
def rplDioRedundancy : UInt8 := 10

/-- The least increase of the rank. -/
def rplMinHoprankinc : UInt16 := 128

/-- The greatest increase over the lowest rank. -/
def rplMaxRankinc : UInt16 := 7 * rplMinHoprankinc

/-- The number of the objective function MRHOF. -/
def rplOcpMrhof : UInt16 := 1

/-- The lifetime of a route, in units. -/
def rplDefaultLifetime : UInt8 := 30

/-- The unit, in seconds. -/
def rplDefaultLifetimeUnit : UInt16 := 60

/-- One byte of padding. -/
def rplOptionPad1 : UInt8 := 0

/-- The metric container. -/
def rplOptionDagMetricContainer : UInt8 := 2

/-- A route. -/
def rplOptionRouteInfo : UInt8 := 3

/-- The configuration of the DAG. -/
def rplOptionDagConf : UInt8 := 4

/-- A prefix. -/
def rplOptionPrefixInfo : UInt8 := 8

/-- No metric container. -/
def rplDagMcNone : UInt8 := 0

/-- A metric container with an energy. -/
def rplDagMcEnergy : UInt8 := 2

/-- A metric container with a number of transmissions. -/
def rplDagMcEtx : UInt8 := 7

/-- `rpl_dio_t`. -/
structure Dio where
  dagId : Ipaddr
  ocp : UInt16
  rank : UInt16
  grounded : UInt8
  mop : UInt8
  preference : UInt8
  version : UInt8
  instanceId : UInt8
  dagIntdoubl : UInt8
  dagIntmin : UInt8
  dagRedund : UInt8
  defaultLifetime : UInt8
  lifetimeUnit : UInt16
  dagMaxRankinc : UInt16
  dagMinHoprankinc : UInt16
  deriving DecidableEq

section

variable (buffer : ℕ → UInt8)

/-- Two bytes in network order. -/
def get16 (i : ℕ) : UInt16 := (buffer i).toUInt16 <<< 8 ||| (buffer (i + 1)).toUInt16

/-- The defaults and the base object. -/
def dioBase : Dio where
  instanceId := buffer 0
  version := buffer 1
  rank := get16 buffer 2
  grounded := buffer 4 &&& 0x80
  mop := (buffer 4 &&& 0x38) >>> 3
  preference := buffer 4 &&& 0x07
  dagId := ⟨(List.range 16).map fun j => buffer (8 + j), by simp⟩
  dagIntdoubl := rplDioIntervalDoublings
  dagIntmin := rplDioIntervalMin
  dagRedund := rplDioRedundancy
  dagMinHoprankinc := rplMinHoprankinc
  dagMaxRankinc := rplMaxRankinc
  ocp := rplOcpMrhof
  defaultLifetime := rplDefaultLifetime
  lifetimeUnit := rplDefaultLifetimeUnit

/-- `len` of the option at `i`. -/
def optionLen (i : ℕ) : ℕ :=
  if buffer i = rplOptionPad1 then 1 else 2 + (buffer (i + 1)).toNat

/-- The DAG configuration option at `i`. -/
def dioDagConf (i : ℕ) (dio : Dio) : Dio :=
  { dio with
      dagIntdoubl := buffer (i + 3)
      dagIntmin := buffer (i + 4)
      dagRedund := buffer (i + 5)
      dagMaxRankinc := get16 buffer (i + 6)
      dagMinHoprankinc := get16 buffer (i + 8)
      ocp := get16 buffer (i + 10)
      defaultLifetime := buffer (i + 13)
      lifetimeUnit := get16 buffer (i + 14) }

/-- The checks of the option at `i`; a message with an option that fails them is discarded. -/
def optionValid (i len : ℕ) : Bool :=
  let type := buffer i
  if type = rplOptionDagMetricContainer then
    let mc := buffer (i + 2)
    6 ≤ len ∧ (mc = rplDagMcNone ∨ mc = rplDagMcEtx ∨ mc = rplDagMcEnergy)
  else if type = rplOptionRouteInfo then
    let length := (buffer (i + 2)).toNat
    9 ≤ len ∧ (length + 7) / 8 + 8 ≤ len ∧ length ≤ 128
  else if type = rplOptionDagConf then len = 16
  else if type = rplOptionPrefixInfo then len = 32
  else true

/-- The option at `i`. -/
def dioOption (i len : ℕ) (dio : Dio) : Option Dio :=
  if optionValid buffer i len then
    some (if buffer i = rplOptionDagConf then dioDagConf buffer i dio else dio)
  else none

/-- The loop over the options; an option has at least one byte. -/
def dioOptions (buffer : ℕ → UInt8) (bufferLength : ℕ) : ℕ → ℕ → Dio → Option Dio
  | 0, _, dio => some dio
  | fuel + 1, i, dio =>
    if i < bufferLength then
      if bufferLength < optionLen buffer i + i then none
      else do
        let dio ← dioOption buffer i (optionLen buffer i) dio
        dioOptions buffer bufferLength fuel (i + optionLen buffer i) dio
    else some dio

/-- `dio_input` up to `rpl_process_dio`; `bufferLength` is a `uint8_t`. -/
def dioInput (bufferLength : UInt8) : Option Dio :=
  dioOptions buffer bufferLength.toNat 256 24 (dioBase buffer)

/-! ### The parameters of a message -/

/-- Parameters that `DAG_RANK` can divide by and an interval can be shifted by. -/
def Usable (minHoprankinc : UInt16) (intmin intdoubl : UInt8) : Prop :=
  0 < minHoprankinc ∧ intmin.toNat + intdoubl.toNat < 32

instance {r : UInt16} {a b : UInt8} : Decidable (Usable r a b) :=
  inferInstanceAs (Decidable (_ ∧ _))

/-- The places of the options. -/
def optionPlaces (buffer : ℕ → UInt8) (bufferLength : ℕ) : ℕ → ℕ → List ℕ
  | 0, _ => []
  | fuel + 1, i =>
    if i < bufferLength then i :: optionPlaces buffer bufferLength fuel (i + optionLen buffer i)
      else []

/-- The minimum rank increase, the smallest interval and the number of doublings. -/
structure Conf where
  minHoprankinc : UInt16
  intmin : UInt8
  intdoubl : UInt8

/-- The parameters that a DIO sets. -/
def Dio.conf (dio : Dio) : Conf := ⟨dio.dagMinHoprankinc, dio.dagIntmin, dio.dagIntdoubl⟩

/-- The parameters after the option at `i`. -/
def confAfter (c : Conf) (i : ℕ) : Conf :=
  if buffer i = rplOptionDagConf then ⟨get16 buffer (i + 8), buffer (i + 4), buffer (i + 3)⟩ else c

/-- The parameters that a message carries: those of its last configuration option, or the
defaults. -/
def messageConf (bufferLength : UInt8) : Conf :=
  (optionPlaces buffer bufferLength.toNat 256 24).foldl (confAfter buffer)
    ⟨rplMinHoprankinc, rplDioIntervalMin, rplDioIntervalDoublings⟩

end

/-- They can be used. -/
def Conf.Usable (c : Conf) : Prop := Rpl.Usable c.minHoprankinc c.intmin c.intdoubl

instance {c : Conf} : Decidable c.Usable := inferInstanceAs (Decidable (Rpl.Usable _ _ _))

variable {buffer : ℕ → UInt8} {i len : ℕ} {dio dio' : Dio}

theorem dioOption_conf (h : dioOption buffer i len dio = some dio') :
    dio'.conf = confAfter buffer dio.conf i := by
  unfold dioOption at h
  split at h
  · cases h
    rw [confAfter]
    split
    · rfl
    · rfl
  · cases h

theorem dioOptions_conf {bufferLength fuel : ℕ}
    (h : dioOptions buffer bufferLength fuel i dio = some dio') :
    dio'.conf = (optionPlaces buffer bufferLength fuel i).foldl (confAfter buffer) dio.conf := by
  induction fuel generalizing i dio with
  | zero => rw [← Option.some.inj h, optionPlaces, List.foldl_nil]
  | succ fuel ih =>
    rw [dioOptions] at h
    rw [optionPlaces]
    split at h
    · rename_i hi
      split_ifs at h
      obtain ⟨dio₁, hopt, hopts⟩ := Option.bind_eq_some_iff.mp h
      rw [if_pos hi, List.foldl_cons, ← dioOption_conf hopt, ih hopts]
    · rename_i hi
      rw [if_neg hi, ← Option.some.inj h, List.foldl_nil]

/-- Nothing is checked: the parameters of a message that is accepted are those it carries. -/
theorem dioInput_conf {bufferLength : UInt8} (h : dioInput buffer bufferLength = some dio) :
    dio.conf = messageConf buffer bufferLength := dioOptions_conf h

end Nespy.Rpl
