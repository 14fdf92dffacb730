import ApexStorm.Hook.Blocking

/-!
# What a hooked connect reports

A connect call meets its happenings in a fixed order: the result of `connect`, that of
`addEvent`, the end of the wait and the answer to `SO_ERROR`. The code asks for
`SO_ERROR` also when `addEvent` has failed or the wait was cancelled, while the
attempt may still be in progress and the answer says nothing.
-/

namespace ApexStorm.Waiting
open Lib TimerManager
open IOManager (Event)
open Hook (EINPROGRESS)

def inProgress : Happening := .result (-1) EINPROGRESS

def Probes (hs : List Happening) : Prop :=
  (∃ rt errno, rt ≠ 0 ∧ hs = [inProgress, .added rt errno]) ∨
    ∃ errno, hs = [inProgress, .added 0 errno, .resumed false]

inductive Returned (rt errno : ℤ) : List Happening → Prop
  | result : Returned rt errno [.result rt errno]
  | timedOut (e : ℤ) (hrt : rt = -1) (herrno : errno = ETIMEDOUT) :
      Returned rt errno [inProgress, .added 0 e, .resumed true]
  | probed {hs : List Happening} (h : Probes hs) (r e error : ℤ) (settled : Bool)
      (hpc : Frame.afterProbe r e error = .done rt errno) :
      Returned rt errno (hs ++ [.probed r e error settled])

def Attempt : Pc → List Happening → Prop
  | .idle, hs | .calling, hs => hs = []
  | .arming, hs | .adding _, hs => hs = [inProgress]
  | .parked _ _, hs | .resumed _, hs | .checking, hs => ∃ e, hs = [inProgress, .added 0 e]
  | .unwinding _ _, hs => ∃ rt e, rt ≠ 0 ∧ hs = [inProgress, .added rt e]
  | .probing, hs => Probes hs
  | .done rt errno, hs => Returned rt errno hs

theorem attempt_result (n errno : ℤ) :
    Attempt (Frame.afterResult n errno .connect) [.result n errno] := by
  simp only [Frame.afterResult]
  split_ifs with hzero hother
  · rw [hzero]
    exact .result
  · exact .result
  · simp only [not_or, not_not] at hother
    rw [hother.1, hother.2]
    rfl

theorem attempt_resumed {f : Frame} (hf : f.Flagged) (e : ℤ) :
    Attempt (Frame.afterCheck f.cancelled .connect)
      [inProgress, .added 0 e, .resumed f.fired] := by
  rw [Frame.Flagged] at hf
  rw [hf]
  cases f.fired with
  | true => exact .timedOut e rfl rfl
  | false => exact .inr ⟨e, rfl⟩

theorem attempt_probed {hs : List Happening} (h : Probes hs) (r e error : ℤ) (settled : Bool) :
    Attempt (Frame.afterProbe r e error) (hs ++ [.probed r e error settled]) := by
  obtain ⟨rt, errno, hpc⟩ : ∃ rt errno, Frame.afterProbe r e error = .done rt errno := by
    rw [Frame.afterProbe]
    split_ifs <;> exact ⟨_, _, rfl⟩
  rw [hpc]
  exact .probed h r e error settled hpc

namespace Frame
variable {f f' : Frame}

theorem Moves.attempt (h : f.Moves .connect f') (hflag : f.Flagged)
    (hf : Attempt f.pc f.history) : Attempt f'.pc f'.history := by
  cases h with
  | start hpc =>
    rw [hpc] at hf
    exact hf
  | original n errno hpc =>
    rw [hpc] at hf
    rw [note, show f.history = [] from hf]
    exact attempt_result n errno
  | resume timer hpc =>
    rw [hpc] at hf
    exact hf
  | check hpc =>
    rw [hpc] at hf
    obtain ⟨e, he⟩ := hf
    rw [note, he]
    exact attempt_resumed hflag e
  | probe rt errno error hpc =>
    rw [hpc] at hf
    exact attempt_probed hf rt errno error f.settled
  | settle => exact hf

theorem Changes.attempt (h : f.Changes .connect f') (hflag : f.Flagged)
    (hf : Attempt f.pc f.history) : Attempt f'.pc f'.history := by
  cases h with
  | move h => exact h.attempt hflag hf
  | arm timer hpc =>
    rw [hpc] at hf
    exact hf
  | add timer rt errno hpc =>
    rw [hpc] at hf
    rw [Frame.add, note, show f.history = [inProgress] from hf]
    by_cases hrt : rt = 0
    · rw [if_pos hrt, hrt]
      exact ⟨errno, rfl⟩
    · rw [if_neg hrt]
      exact ⟨rt, errno, hrt, rfl⟩
  | wake timer woken hpc =>
    rw [hpc] at hf
    exact hf
  | cancelled timer hpc =>
    rw [hpc] at hf
    exact hf
  | failed timer errno hpc =>
    rw [hpc] at hf
    exact .inl hf

end Frame

/-- A call that has met `hs` reports success only for an established connection: the connect
succeeded at once, or `SO_ERROR` was 0 after the attempt was over. It reports a timeout if its timer
fired first, and a failure if the wait could not be set up. -/
def Reports (hs : List Happening) (rt errno : ℤ) : Prop :=
  (rt = 0 → (∃ e, .result 0 e ∈ hs) ∨ ∃ r e, r ≠ -1 ∧ .probed r e 0 true ∈ hs) ∧
  (.resumed true ∈ hs → rt = -1 ∧ errno = ETIMEDOUT) ∧
  ∀ r e, .added r e ∈ hs → r ≠ 0 → rt = -1

/-- An answer 0 to `SO_ERROR` comes after a wait and when the attempt is over. -/
def Conclusive (hs : List Happening) : Prop :=
  ∀ r e settled, .probed r e 0 settled ∈ hs → r ≠ -1 →
    settled = true ∧ ∀ r' e', .added r' e' ∈ hs → r' = 0

namespace Probes
variable {hs : List Happening} {r e error : ℤ} {settled : Bool}

theorem result_not_mem (h : Probes hs) (e : ℤ) : .result 0 e ∉ hs := by
  rcases h with ⟨rt, errno, -, rfl⟩ | ⟨errno, rfl⟩ <;> simp [inProgress]

theorem resumed_not_mem (h : Probes hs) : .resumed true ∉ hs := by
  rcases h with ⟨rt, errno, -, rfl⟩ | ⟨errno, rfl⟩ <;> simp [inProgress]

theorem probed_not_mem (h : Probes hs) (r e error : ℤ) (settled : Bool) :
    .probed r e error settled ∉ hs := by
  rcases h with ⟨rt, errno, -, rfl⟩ | ⟨errno, rfl⟩ <;> simp [inProgress]

theorem conclusive_iff (h : Probes hs) : Conclusive (hs ++ [.probed r e error settled]) ↔
    (r ≠ -1 → error = 0 → settled = true ∧ ∀ r' e', .added r' e' ∈ hs → r' = 0) := by
  constructor
  · rintro hc hr rfl
    obtain ⟨hsettled, hadded⟩ := hc r e settled (by simp) hr
    exact ⟨hsettled, fun r' e' hmem => hadded r' e' (by simp [hmem])⟩
  · intro hc r' e' settled' hmem hr'
    rw [List.mem_append, List.mem_singleton] at hmem
    rcases hmem with hmem | heq
    · exact absurd hmem (h.probed_not_mem _ _ _ _)
    · cases heq
      obtain ⟨hsettled, hadded⟩ := hc hr' rfl
      exact ⟨hsettled, fun r'' e'' hmem => hadded r'' e'' (by simpa using hmem)⟩

theorem reports_failure (h : Probes hs) (errno : ℤ) :
    Reports (hs ++ [.probed r e error settled]) (-1) errno := by
  refine ⟨fun hzero => absurd hzero (by decide), ?_, fun _ _ _ _ => rfl⟩
  intro hmem
  exact absurd (by simpa using hmem) h.resumed_not_mem

theorem reports_success_iff (h : Probes hs) (hr : r ≠ -1) (errno : ℤ) :
    Reports (hs ++ [.probed r e 0 settled]) 0 errno ↔
      settled = true ∧ ∀ r' e', .added r' e' ∈ hs → r' = 0 := by
  constructor
  · rintro ⟨hsuccess, -, hadded⟩
    refine ⟨?_, ?_⟩
    · rcases hsuccess rfl with ⟨e', hmem⟩ | ⟨r', e', -, hmem⟩
      · exact absurd (by simpa using hmem) (h.result_not_mem e')
      · rw [List.mem_append, List.mem_singleton] at hmem
        rcases hmem with hmem | heq
        · exact absurd hmem (h.probed_not_mem _ _ _ _)
        · cases heq
          rfl
    · intro r' e' hmem
      by_contra hr'
      exact absurd (hadded r' e' (by simp [hmem]) hr') (by decide)
  · rintro ⟨rfl, hadded⟩
    refine ⟨fun _ => .inr ⟨r, e, hr, by simp⟩, ?_, ?_⟩
    · intro hmem
      exact absurd (by simpa using hmem) h.resumed_not_mem
    · intro r' e' hmem hr'
      exact absurd (hadded r' e' (by simpa using hmem)) hr'

end Probes

theorem Returned.reports_iff {rt errno : ℤ} {hs : List Happening} (h : Returned rt errno hs) :
    Reports hs rt errno ↔ Conclusive hs := by
  cases h with
  | result => simp [Reports, Conclusive, eq_comm]
  | timedOut e hrt herrno => simp [Reports, Conclusive, inProgress, hrt, herrno]
  | probed h r e error settled hpc =>
    rw [h.conclusive_iff]
    rw [Frame.afterProbe] at hpc
    split_ifs at hpc with hr herror
    · cases hpc
      exact iff_of_true (h.reports_failure _) fun hr' => absurd hr hr'
    · cases hpc
      rw [herror, h.reports_success_iff hr]
      exact ⟨fun hs _ _ => hs, fun hs => hs hr rfl⟩
    · cases hpc
      exact iff_of_true (h.reports_failure _) fun _ herror' => absurd herror' herror

namespace System
variable {spec : ℕ → Spec} {s : System}

theorem attempt_of_run {start : UInt64} {es : List Act}
    (hrun : Run (Step spec) (initial start) es s) {c : ℕ} (hkind : (spec c).kind = .connect) :
    Attempt (s.frame c).pc (s.frame c).history := by
  refine (frame_of_run (P := fun kind f => f.Flagged ∧
    (kind = .connect → Attempt f.pc f.history)) hrun ?_ ?_ ?_ c).2 hkind
  · exact fun kind => ⟨rfl, fun _ => rfl⟩
  · rintro kind f f' ⟨hflag, hf⟩ hchange
    refine ⟨hchange.flagged hflag, ?_⟩
    rintro rfl
    exact hchange.attempt hflag (hf rfl)
  · rintro kind f ⟨-, hf⟩
    exact ⟨rfl, hf⟩

/-- In every run a connect call goes on until it returns, and what it returns is right if and only
if `SO_ERROR` was not found to be 0 without a wait or during the attempt. -/
theorem connect_reports_iff (spec : ℕ → Spec) (start : UInt64) (es : List Act) (s : System)
    (hrun : Run (Step spec) (initial start) es s) (c : ℕ) (hkind : (spec c).kind = .connect) :
    s.Proceeds spec c ∧ ∀ rt errno, (s.frame c).pc = .done rt errno →
      (Reports (s.frame c).history rt errno ↔ Conclusive (s.frame c).history) := by
  refine ⟨(Inv.of_run hrun).proceeds c, fun rt errno hpc => ?_⟩
  have hattempt := attempt_of_run hrun hkind
  rw [hpc] at hattempt
  exact Returned.reports_iff hattempt

def connects (_ : ℕ) : Spec := ⟨.connect, 3, .write, 5⟩

def establishing : List Act :=
  [.move 0 .start, .move 0 (.original (-1) EINPROGRESS), .arm 0 1 0, .add 0 0 0, .move 0 .settle,
    .ready (3, .write), .move 0 .resume, .cancelTimer 0, .move 0 .check, .move 0 (.probe 0 0 0)]

theorem connect_reports_established :
    ∃ s, Run (Step connects) (initial 0) establishing s ∧ (s.frame 0).pc = .done 0 0 ∧
      Reports (s.frame 0).history 0 0 := by
  have hrun : ∃ s, Run (Step connects) (initial 0) establishing s ∧ (s.frame 0).pc = .done 0 0 ∧
      (s.frame 0).history = [inProgress, .added 0 0, .resumed false] ++ [.probed 0 0 0 true] :=
    ⟨_, .cons ⟨trivial, rfl⟩ (.cons ⟨trivial, rfl⟩ (.cons ⟨fun _ => rfl, rfl⟩ (.cons ⟨trivial, rfl⟩
      (.cons ⟨trivial, rfl⟩ (.cons ⟨trivial, rfl⟩ (.cons ⟨trivial, rfl⟩ (.cons ⟨trivial, rfl⟩
      (.cons ⟨trivial, rfl⟩ (.cons ⟨nofun, rfl⟩ (.nil _)))))))))), rfl, rfl⟩
  obtain ⟨s, hrun, hpc, hhistory⟩ := hrun
  obtain ⟨-, hiff⟩ := connect_reports_iff connects 0 _ s hrun 0 rfl
  refine ⟨s, hrun, hpc, (hiff 0 0 hpc).mpr ?_⟩
  have hprobes : Probes [inProgress, .added 0 0, .resumed false] := .inr ⟨0, rfl⟩
  rw [hhistory, hprobes.conclusive_iff]
  exact fun _ _ => ⟨rfl, by simp [inProgress]⟩

/-- `addEvent` fails while the attempt is in progress, and the call reports success; so it does when
another thread cancels the wait. -/
theorem connect_reports_wrong :
    (∃ s, Run (Step connects) (initial 0)
      [.move 0 .start, .move 0 (.original (-1) EINPROGRESS), .arm 0 1 0, .add 0 (-1) 12,
        .cancelTimer 0, .move 0 (.probe 0 12 0)] s ∧
      (s.frame 0).pc = .done 0 12 ∧ (s.frame 0).settled = false ∧
      ¬Reports (s.frame 0).history 0 12) ∧
    ∃ s, Run (Step connects) (initial 0)
      [.move 0 .start, .move 0 (.original (-1) EINPROGRESS), .arm 0 1 0, .add 0 0 0,
        .cancelEvent (3, .write), .move 0 .resume, .cancelTimer 0, .move 0 .check,
        .move 0 (.probe 0 0 0)] s ∧
      (s.frame 0).pc = .done 0 0 ∧ (s.frame 0).settled = false ∧
      ¬Reports (s.frame 0).history 0 0 := by
  refine ⟨⟨_, .cons ⟨trivial, rfl⟩ (.cons ⟨trivial, rfl⟩ (.cons ⟨fun _ => rfl, rfl⟩
      (.cons ⟨trivial, rfl⟩ (.cons ⟨trivial, rfl⟩ (.cons ⟨fun _ => rfl, rfl⟩ (.nil _)))))),
      rfl, rfl, ?_⟩,
    ⟨_, .cons ⟨trivial, rfl⟩ (.cons ⟨trivial, rfl⟩ (.cons ⟨fun _ => rfl, rfl⟩
      (.cons ⟨trivial, rfl⟩ (.cons ⟨trivial, rfl⟩ (.cons ⟨trivial, rfl⟩ (.cons ⟨trivial, rfl⟩
      (.cons ⟨trivial, rfl⟩ (.cons ⟨fun _ => rfl, rfl⟩ (.nil _))))))))), rfl, rfl, ?_⟩⟩
  · intro h
    have hprobes : Probes [inProgress, .added (-1) 12] := .inl ⟨-1, 12, by decide, rfl⟩
    cases ((hprobes.reports_success_iff (by decide) 12).mp h).1
  · intro h
    have hprobes : Probes [inProgress, .added 0 0, .resumed false] := .inr ⟨0, rfl⟩
    cases ((hprobes.reports_success_iff (by decide) 0).mp h).1

end System
end ApexStorm.Waiting
