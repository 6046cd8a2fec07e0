import Mathlib.Algebra.Order.BigOperators.Group.List
import PacketIntercept.Comparison
import PacketIntercept.DiffStatistics
import PacketIntercept.EbpfMachine
import PacketIntercept.KmLogFile
import PacketIntercept.KmMachine

namespace PacketIntercept.Experiment

open ByteMemory Common LogBuffs DecimalText KmLogFile ArrayMaps XdpSockProg EbpfPipeline Comparison
open DiffCollection DiffStatistics FloatArithmetic HistogramStatistics TrueDivision Runs

def words (log : Log) : Nat → Nat → UInt64 := fun i j => UInt64.ofNat (log i j)

/-- The check of the scripts that all logs of an iteration have equal lengths. -/
def SameLengths (logs : Fin 6 → List ℤ) : Prop :=
  ¬ ((logs kmLog).length ≠ (logs upLog).length ∨ (logs kmLog).length ≠ (logs kmSLog).length ∨
    (logs ebpfLog).length ≠ (logs usebpfLog).length ∨ (logs ebpfLog).length ≠ (logs ebpfSLog).length ∨
    (logs kmSLog).length ≠ (logs ebpfSLog).length)

instance (logs : Fin 6 → List ℤ) : Decidable (SameLengths logs) := by
  unfold SameLengths
  infer_instance

theorem SameLengths.length_eq {logs : Fin 6 → List ℤ} (h : SameLengths logs) (l : Fin 6) :
    (logs l).length = (logs kmLog).length := by
  simp only [SameLengths, not_or, not_not] at h
  obtain ⟨h1, h2, h3, h4, h5⟩ := h
  match l with
  | 0 => rfl
  | 1 => exact h1.symm
  | 2 => exact h2.symm
  | 3 => exact h4.trans (h5.symm.trans h2.symm)
  | 4 => exact h3.symm.trans (h4.trans (h5.symm.trans h2.symm))
  | 5 => exact h5.symm.trans h2.symm

/-- One measurement of both applications, on memory and files it finds. -/
structure Measurement where
  outside : Mem
  km : List KmMachine.Event
  ebpf : List EbpfMachine.Event
  oldKm : Option (List UInt8)

def zeroLog : Log := fun _ _ => 0

def Measurement.kmEnd (e : Measurement) : KmMachine.Machine :=
  run KmMachine.step (KmMachine.start zeroLog zeroLog zeroLog e.outside) e.km

def Measurement.ebpfEnd (e : Measurement) : EbpfMachine.Machine :=
  run EbpfMachine.step (EbpfMachine.start zeroLog zeroLog) e.ebpf

/-- The time that a log holds for a uid when the measurement ends. -/
def Measurement.time (e : Measurement) (l : Fin 6) (k : Nat) : Nat :=
  match l with
  | 0 => entry shipped e.kmEnd.up.sys.cache.module.logBuffs k
  | 1 => entry shipped e.kmEnd.up.log k
  | 2 => entry shipped e.kmEnd.server.log k
  | 3 => (lookup e.ebpfEnd.us.maps.uidTimestamps k).getD 0
  | 4 => entry shipped e.ebpfEnd.us.log k
  | 5 => entry shipped e.ebpfEnd.server.log k

/-- Client frames with every uid used once, clocks that have not run over, and
no older log in the way that is longer than the new one. -/
structure Measurement.Valid (e : Measurement) : Prop where
  km_client : ∀ ev ∈ e.km, KmMachine.IsClientEvent ev
  km_once : (CausalOrder.uids (e.km.flatMap KmMachine.machineEvents)).Nodup
  km_clock : e.kmEnd.up.clock < 2 ^ 64
  ebpf_client : ∀ ev ∈ e.ebpf, EbpfMachine.IsClientEvent ev
  ebpf_once : (EbpfCompleteness.uids (e.ebpf.flatMap EbpfMachine.machineEvents)).Nodup
  ebpf_clock : e.ebpfEnd.us.clock < 2 ^ 64
  oldKm : (e.oldKm.getD []).length ≤ textLength shipped e.kmEnd.up.sys.cache.module.logBuffs

/-- An iteration as the scripts see it that holds the times of a measurement. -/
structure Holds (e : Measurement) (it : Iteration) : Prop where
  len : it.len = maxLogEntry
  logs : ∀ l (i : Fin it.len), it.logs l i = e.time l i.val

end PacketIntercept.Experiment
