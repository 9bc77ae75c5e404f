import MpmcLogger.RecordFile
import MpmcLogger.Tally

/-!
# The log statistics

The tool counts the records of a file by level and by thread and reports the
counters with the extremes of timestamps and payload lengths; the percentages
and rates it prints besides are computed from these numbers. There are counters
for the levels 0 to 6, and rows for the levels 0 to 5.
-/

set_option autoImplicit false

namespace MpmcLogger.LogStats
open MachineWord Tally MpmcLogger.EntryLayout MpmcLogger.RecordFile

@[ext]
structure Stats where
  total : ℕ
  levelCounts : Fin 7 → ℕ
  threadCounts : Counts ℕ
  minTs : ℕ
  maxTs : ℕ
  totalPayloadBytes : ℕ
  minPayload : ℕ
  maxPayload : ℕ

def Stats.start : Stats := ⟨0,fun _ => 0,.empty,2^64-1,0,0,2^16-1,0⟩

def countLevel (f : Fin 7 → ℕ) (lvl : ℕ) : Fin 7 → ℕ :=
  if h : lvl ≤ 6 then bumpAt f ⟨lvl,by omega⟩ else f

def Stats.add (s : Stats) (e : LogEntry) : Stats where
  total := s.total+1
  levelCounts := countLevel s.levelCounts e.level.value.toNat
  threadCounts := s.threadCounts.bump e.threadId.toNat
  minTs := if e.timestampNs.toNat < s.minTs then e.timestampNs.toNat else s.minTs
  maxTs := if s.maxTs < e.timestampNs.toNat then e.timestampNs.toNat else s.maxTs
  totalPayloadBytes := u64 (s.totalPayloadBytes+e.payloadLen.toNat)
  minPayload := if e.payloadLen.toNat < s.minPayload then e.payloadLen.toNat else s.minPayload
  maxPayload := if s.maxPayload < e.payloadLen.toNat then e.payloadLen.toNat else s.maxPayload

def statsLoop (bs : Bytes) (s : Stats) : Stats :=
  if h : 128 ≤ bs.length then statsLoop (bs.drop 128) (s.add (firstRecord bs h)) else s
termination_by bs.length
decreasing_by rw [List.length_drop]; omega

def levelNames : List String := ["TRACE","DEBUG","INFO ","WARN ","ERROR","FATAL","OFF  "]

structure Report where
  total : ℕ
  levelRows : List (String × ℕ)
  threadRows : List (ℕ × ℕ)
  timeSpan : Option ℕ
  totalPayload : ℕ
  minPayload : ℕ
  maxPayload : ℕ

def Stats.levelRows (s : Stats) : List (String × ℕ) :=
  -- the loop over the seven counters stops before index 6
  (List.finRange 6).filterMap fun i : Fin 6 =>
    if 0 < s.levelCounts (i.castLE (by decide)) then
      some (levelNames.getD i "",s.levelCounts (i.castLE (by decide)))
    else none

def Stats.report (s : Stats) : Report where
  total := s.total
  levelRows := s.levelRows
  threadRows := s.threadCounts.rows
  timeSpan := if 0 < s.total ∧ s.minTs < s.maxTs then some (s.maxTs-s.minTs) else none
  totalPayload := s.totalPayloadBytes
  minPayload := s.minPayload
  maxPayload := s.maxPayload

def logStats (bs : Bytes) : Report := (statsLoop bs .start).report

theorem statsLoop_records (bs : Bytes) (s : Stats) :
    statsLoop bs s = (records bs).foldl Stats.add s := by
  fun_induction statsLoop bs s with
  | case1 bs s h ih => rw [records_next h,List.foldl_cons,ih]
  | case2 bs s h => rw [records_short (not_le.mp h),List.foldl_nil]

theorem logStats_records (bs : Bytes) :
    logStats bs = ((records bs).foldl Stats.add .start).report :=
  congrArg Stats.report (statsLoop_records bs .start)

section Counting

theorem countLevel_comm (f : Fin 7 → ℕ) (a b : ℕ) :
    countLevel (countLevel f a) b = countLevel (countLevel f b) a := by
  unfold countLevel
  split_ifs
  · exact bumpAt_comm f _ _
  · rfl
  · rfl
  · rfl

theorem add_comm (s : Stats) (a b : LogEntry) : (s.add a).add b = (s.add b).add a := by
  refine Stats.ext rfl (countLevel_comm _ _ _) (bump_comm _ _ _) ?_ ?_ ?_ ?_ ?_
  · simp only [Stats.add]
    split_ifs <;> omega
  · simp only [Stats.add]
    split_ifs <;> omega
  · simp only [Stats.add,u64]
    omega
  · simp only [Stats.add]
    split_ifs <;> omega
  · simp only [Stats.add]
    split_ifs <;> omega

instance : RightCommutative Stats.add := ⟨add_comm⟩

def shownLevels (s : Stats) : ℕ := ∑ i : Fin 6, s.levelCounts (i.castLE (by decide))

theorem levelRows_sum (s : Stats) : (s.levelRows.map Prod.snd).sum = shownLevels s :=
  (sum_shown _ _ _).trans (Fin.sum_univ_def _).symm

theorem shownLevels_add (s : Stats) (e : LogEntry) :
    shownLevels (s.add e) = shownLevels s+if e.level.value ≤ 5 then 1 else 0 := by
  have hle : e.level.value ≤ 5 ↔ e.level.value.toNat < 6 := by
    rw [UInt8.le_iff_toNat_le]
    show _ ≤ 5 ↔ _
    omega
  simp only [hle]
  unfold shownLevels Stats.add countLevel
  dsimp only
  split_ifs with h h'
  · rw [sum_bumpAt,if_pos h']
  · rw [sum_bumpAt,if_neg h']
  · omega
  · rfl

/-- The loop counts every record by its thread, and those up to level 5 in rows. -/
theorem foldl_counts (es : List LogEntry) (s : Stats) :
    (es.foldl Stats.add s).total = s.total+es.length ∧
    (es.foldl Stats.add s).threadCounts.total = s.threadCounts.total+es.length ∧
    shownLevels (es.foldl Stats.add s) = shownLevels s+es.countP fun e => e.level.value ≤ 5 := by
  induction es generalizing s with
  | nil => exact ⟨rfl,rfl,rfl⟩
  | cons e es ih =>
    obtain ⟨htotal,hthreads,hlevels⟩ := ih (s.add e)
    rw [List.foldl_cons,htotal,hthreads,hlevels,shownLevels_add,List.countP_cons,List.length_cons]
    refine ⟨?_,?_,?_⟩
    · show s.total+1+es.length = _
      omega
    · show (s.threadCounts.bump _).total+es.length = _
      rw [total_bump]
      omega
    · simp only [decide_eq_true_eq]
      omega

end Counting

/-- The rows of the levels account for every record if and only if no record is
above level 5; those of the threads always do, and the order of the records does
not matter. -/
theorem records_accounted_iff (bs : Bytes) :
    (((logStats bs).levelRows.map Prod.snd).sum = (logStats bs).total ↔
      ∀ e ∈ records bs, e.level.value ≤ 5) ∧
    ((logStats bs).threadRows.map Prod.snd).sum = (logStats bs).total ∧
    ∀ bs', (records bs').Perm (records bs) → logStats bs' = logStats bs := by
  obtain ⟨htotal,hthreads,hlevels⟩ := foldl_counts (records bs) .start
  have hstart : shownLevels .start = 0 := rfl
  rw [hstart,Nat.zero_add] at hlevels
  refine ⟨?_,?_,fun bs' hperm => ?_⟩
  · have hrows : ((logStats bs).levelRows.map Prod.snd).sum =
        (records bs).countP fun e => e.level.value ≤ 5 := by
      rw [logStats_records,← hlevels]
      exact levelRows_sum _
    have hall : (logStats bs).total = (records bs).length := by
      rw [logStats_records]
      exact htotal.trans (Nat.zero_add _)
    rw [hrows,hall,List.countP_eq_length]
    simp only [decide_eq_true_eq]
  · rw [logStats_records]
    exact hthreads.trans htotal.symm
  · rw [logStats_records,logStats_records,hperm.foldl_eq]

def offEntry : LogEntry := LogEntry.ofBytes (List.replicate 128 6) rfl

/-- The tool counts a record of level OFF and has no row for it. -/
theorem off_record_missing :
    (logStats offEntry.toBytes).total = 1 ∧ (logStats offEntry.toBytes).levelRows = [] ∧
      ((logStats offEntry.toBytes).levelRows.map Prod.snd).sum ≠
        (logStats offEntry.toBytes).total := by
  have hone : records offEntry.toBytes = [offEntry] := by
    simpa using records_entries [offEntry]
  rw [logStats_records,hone]
  decide

end MpmcLogger.LogStats
