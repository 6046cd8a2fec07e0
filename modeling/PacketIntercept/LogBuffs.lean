import PacketIntercept.Common

namespace PacketIntercept.LogBuffs

open Common

abbrev Log := Nat → Nat → Nat

/-- The guarded write of a timestamp that the module, user-processing, the
server and ebpf_measure_user all make. -/
def record (t : Tuning) (uid now : Nat) (log : Log) : Log :=
  if uid < t.maxLogEntry then
    Function.update log (uid / t.maxEntriesPerLogBuff)
      (Function.update (log (uid / t.maxEntriesPerLogBuff)) (uid % t.maxEntriesPerLogBuff) now)
  else log

def entry (t : Tuning) (log : Log) (k : Nat) : Nat :=
  log (k / t.maxEntriesPerLogBuff) (k % t.maxEntriesPerLogBuff)

def exportLog (t : Tuning) (log : Log) : List Nat :=
  (List.range t.maxLogEntry).map (entry t log)

theorem entry_record (t : Tuning) (uid now : Nat) (log : Log) (k : Nat) :
    entry t (record t uid now log) k =
      if uid = k ∧ uid < t.maxLogEntry then now else entry t log k := by
  by_cases hu : uid < t.maxLogEntry
  · by_cases hk : uid = k
    · subst k
      simp [entry, record, hu]
    · simp only [entry, record, hu, if_true, hk, false_and, if_false]
      by_cases hd : k / t.maxEntriesPerLogBuff = uid / t.maxEntriesPerLogBuff
      · have hm : k % t.maxEntriesPerLogBuff ≠ uid % t.maxEntriesPerLogBuff := by
          intro hm
          apply hk
          rw [← Nat.div_add_mod uid t.maxEntriesPerLogBuff, ← hd, ← hm, Nat.div_add_mod]
        rw [hd, Function.update_self, Function.update_of_ne hm]
      · rw [Function.update_of_ne hd]
  · simp [record, hu]

theorem exportLog_getElem? (t : Tuning) (log : Log) {k : Nat} (hk : k < t.maxLogEntry) :
    (exportLog t log)[k]? = some (entry t log k) := by
  simp [exportLog, hk]

end PacketIntercept.LogBuffs
