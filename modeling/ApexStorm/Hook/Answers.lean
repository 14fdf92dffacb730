import ApexStorm.Hook.Blocking
import ApexStorm.Hook.SocketTimeout

/-!
# A hooked call and the answers it gets

The program `doIo` takes the other fibers as an environment that answers it. Its
result is what the answers lead to, in the order in which it asked for them, so it
returns what a call among the others returns after the same answers.
-/

namespace ApexStorm.Waiting
open Hook
open IOManager (Event)
open Socket (Known arming disarming awaiting await_eq_some)

/-- What the effects of an I/O call were answered, after those in `before`. The field `cancelled` is
read after the timer is cancelled, if there is one. -/
def answers (env : Env) (timeout : ℕ) : List Effect → List Effect → List Happening
  | _, [] => []
  | before, .original call :: rest =>
    .result (env.reply before call).1 (env.reply before call).2 ::
      answers env timeout (before ++ [.original call]) rest
  | before, .addEvent fd event :: rest =>
    .added (env.addEvent before) EAGAIN :: answers env timeout (before ++ [.addEvent fd event]) rest
  | before, .yieldToHold :: rest =>
    .resumed (env.cancelled (before ++ .yieldToHold :: disarming timeout) ≠ 0) ::
      answers env timeout (before ++ [.yieldToHold]) rest
  | before, e :: rest => answers env timeout (before ++ [e]) rest

section
variable {env : Env} {fd : ℤ} {event : Event} {timeout : ℕ} {before rest : List Effect}

theorem answers_arming :
    answers env timeout before (arming fd event timeout ++ rest) =
      answers env timeout (before ++ arming fd event timeout) rest := by
  rw [arming]
  split_ifs
  · rfl
  · rw [List.nil_append, List.append_nil]

theorem answers_disarming :
    answers env timeout before (disarming timeout ++ rest) =
      answers env timeout (before ++ disarming timeout) rest := by
  rw [disarming]
  split_ifs
  · rfl
  · rw [List.nil_append, List.append_nil]

theorem answers_awaiting :
    answers env timeout before (awaiting env before fd event timeout ++ rest) =
      .added (env.addEvent (before ++ arming fd event timeout)) EAGAIN ::
        ((if env.addEvent (before ++ arming fd event timeout) = 0 then
            [.resumed (env.cancelled (before ++ awaiting env before fd event timeout) ≠ 0)]
          else []) ++
          answers env timeout (before ++ awaiting env before fd event timeout) rest) := by
  rw [awaiting, List.append_assoc, answers_arming, List.cons_append, answers]
  split_ifs
  · rw [List.singleton_append, List.cons_append, answers, answers_disarming]
    simp
  · rw [List.nil_append, answers_disarming]
    simp

variable {call : Call} {fuel : ℕ} {w w' : World} {n : ℤ}

theorem verdict_awaiting {v v' : World} {rt cancelled : ℤ}
    (h : await env fd event timeout v = some ((rt, cancelled), v')) (rest : List Effect) :
    verdict (answers env timeout v.trace (awaiting env v.trace fd event timeout ++ rest)) =
      verdict (.added rt EAGAIN :: ((if rt = 0 then [.resumed (cancelled ≠ 0)] else []) ++
        answers env timeout v'.trace rest)) := by
  obtain ⟨hv', hrt, hcancelled⟩ := await_eq_some h
  rw [answers_awaiting, ← hrt, ← hcancelled, hv']

theorem doIoLoop_verdict
    (hflag : ∀ trace, env.cancelled trace = 0 ∨ env.cancelled trace = ETIMEDOUT)
    (h : doIoLoop env call fd event timeout fuel w = some (n, w')) :
    ∃ new errno, w'.trace = w.trace ++ new ∧
      verdict (answers env timeout w.trace new) = some (n, errno) ∧
      (n = -1 → errno = w'.errno) := by
  induction fuel generalizing w with
  | zero => cases h
  | succ fuel ih =>
    obtain ⟨v, hv⟩ : ∃ v, v = (perform env call w).2 := ⟨_, rfl⟩
    have htrace : v.trace = w.trace ++ [.original call] := by rw [hv]; rfl
    have herrno : (env.reply w.trace call).1 = -1 → v.errno = (env.reply w.trace call).2 := by
      intro hfail
      rw [hv]
      exact if_pos hfail
    -- an answer that does not end the call leaves the verdict to the rest
    have hagain : (env.reply w.trace call).1 = -1 → v.errno = EINTR ∨ v.errno = EAGAIN →
        ∀ rest, verdict (answers env timeout w.trace (.original call :: rest)) =
          verdict (answers env timeout v.trace rest) := by
      intro hret herr rest
      rw [herrno hret] at herr
      rw [answers, verdict, if_pos ⟨hret, herr⟩, htrace]
    have hround := doIoLoop_round h
    rw [← hv] at hround
    cases hround with
    | interrupted hret herr h =>
      obtain ⟨new, errno, hnew, hverdict, hend⟩ := ih h
      refine ⟨.original call :: new, errno, by rw [hnew, htrace]; simp, ?_, hend⟩
      rw [hagain hret (.inl herr), hverdict]
    | unregistered hret herr hawait hrt =>
      have hv' := (await_eq_some hawait).1
      refine ⟨.original call :: (awaiting env v.trace fd event timeout ++ []), EAGAIN,
        by rw [hv', htrace]; simp, ?_, fun _ => by rw [hv', herr]⟩
      rw [hagain hret (.inr herr), verdict_awaiting hawait, verdict, if_neg hrt]
    | @cancelled rt cancelled v' hret herr hawait hrt hcancelled =>
      obtain ⟨hv', -, hread⟩ := await_eq_some hawait
      refine ⟨.original call :: (awaiting env v.trace fd event timeout ++ []), ETIMEDOUT,
        by rw [hv', htrace]; simp, ?_, fun _ => ?_⟩
      · rw [hagain hret (.inr herr), verdict_awaiting hawait, verdict, if_pos hrt, if_pos hrt,
          List.singleton_append, verdict, if_pos (by simpa using hcancelled)]
      · exact ((hread ▸ hflag _).resolve_left hcancelled).symm
    | woken hret herr hawait hrt hcancelled h =>
      have hv' := (await_eq_some hawait).1
      obtain ⟨new, errno, hnew, hverdict, hend⟩ := ih h
      refine ⟨.original call :: (awaiting env v.trace fd event timeout ++ new), errno,
        by rw [hnew, hv', htrace]; simp, ?_, hend⟩
      rw [hagain hret (.inr herr), verdict_awaiting hawait, verdict, if_pos hrt, if_pos hrt,
        List.singleton_append, verdict, if_neg (by simpa using hcancelled), hverdict]
    | returned hret =>
      refine ⟨[.original call], (env.reply w.trace call).2, htrace, ?_, fun hfail => ?_⟩
      · rw [answers, answers, verdict, if_neg]
        · rfl
        · rintro ⟨hfail, herr⟩
          rw [← herrno hfail] at herr
          exact hret ⟨hfail, herr⟩
      · exact (herrno hfail).symm

/-- On an open blocking socket behind the hook `doIo` returns what its answers lead to. -/
theorem doIo_verdict {c : FdCtx} {type : ℤ}
    (hflag : ∀ trace, env.cancelled trace = 0 ∨ env.cancelled trace = ETIMEDOUT)
    (hon : w.hookEnable = true) (hknown : Known w.datas fd c) (hopen : c.isClosed = false)
    (hsocket : c.isSocket = true) (hblocking : c.userNonblock = false)
    (h : doIo env fuel call fd event type w = some (n, w')) :
    ∃ new errno, w'.trace = w.trace ++ new ∧
      verdict (answers env (c.getTimeout type) w.trace new) = some (n, errno) ∧
      (n = -1 → errno = w'.errno) := by
  rw [doIo, on_eq hon, bind_apply, hknown.get, Option.bind_some] at h
  simp only [hopen, hsocket, hblocking, ite_run, Bool.false_eq_true, if_false, Bool.not_true,
    Bool.or_self] at h
  exact doIoLoop_verdict hflag h

end
end ApexStorm.Waiting
