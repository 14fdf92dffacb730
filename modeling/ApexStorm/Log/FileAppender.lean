import ApexStorm.Log.Format

/-!
# Appending to a log file

`FileLogAppender::log` reopens its file whenever the second has changed since the
record before, and `std::ofstream::open` truncates. So what was written in earlier
seconds is gone.
-/

namespace ApexStorm.Log

/-- A call of `log` and the value of `time(0)` in it. -/
structure LogCall where
  now : ℕ
  level : Level
  event : LogEvent

structure FileLogAppender where
  level : Level
  formatter : LogFormatter
  lastTime : ℕ
  file : String

section Append
variable (strftime : String → ℕ → String)

namespace FileLogAppender

def new (level : Level) (formatter : LogFormatter) : FileLogAppender := ⟨level, formatter, 0, ""⟩

def reopen (a : FileLogAppender) : FileLogAppender := { a with file := "" }

def log (a : FileLogAppender) (c : LogCall) : FileLogAppender :=
  if a.level.toNat ≤ c.level.toNat then
    let a := if c.now ≠ a.lastTime then { a.reopen with lastTime := c.now } else a
    { a with file := a.file ++ a.formatter.format strftime c.level c.event }
  else a

end FileLogAppender

def LogCall.text (formatter : LogFormatter) (c : LogCall) : String :=
  formatter.format strftime c.level c.event

def accepted (level : Level) (cs : List LogCall) : List LogCall :=
  cs.filter fun c => level.toNat ≤ c.level.toNat

def records (formatter : LogFormatter) : List LogCall → String
  | [] => ""
  | c :: cs => c.text strftime formatter ++ records formatter cs

variable {strftime} {level : Level} {formatter : LogFormatter} {lastTime : ℕ} {file : String}
  {c : LogCall} {cs : List LogCall}

theorem log_same (hc : level.toNat ≤ c.level.toNat) (hnow : c.now = lastTime) :
    FileLogAppender.log strftime ⟨level, formatter, lastTime, file⟩ c =
      ⟨level, formatter, lastTime, file ++ c.text strftime formatter⟩ := by
  simp [FileLogAppender.log, LogCall.text, hc, hnow]

theorem log_other (hc : level.toNat ≤ c.level.toNat) (hnow : c.now ≠ lastTime) :
    FileLogAppender.log strftime ⟨level, formatter, lastTime, file⟩ c =
      ⟨level, formatter, c.now, c.text strftime formatter⟩ := by
  simp [FileLogAppender.log, FileLogAppender.reopen, LogCall.text, hc, hnow]

theorem log_accepted (cs : List LogCall) :
    cs.foldl (FileLogAppender.log strftime) ⟨level, formatter, lastTime, file⟩ =
      (accepted level cs).foldl (FileLogAppender.log strftime)
        ⟨level, formatter, lastTime, file⟩ := by
  induction cs generalizing lastTime file with
  | nil => rfl
  | cons c cs ih =>
    by_cases hc : level.toNat ≤ c.level.toNat
    · have hacc : accepted level (c :: cs) = c :: accepted level cs :=
        List.filter_cons_of_pos (by simpa using hc)
      rw [hacc, List.foldl_cons, List.foldl_cons]
      by_cases hnow : c.now = lastTime
      · rw [log_same hc hnow, ih]
      · rw [log_other hc hnow, ih]
    · have hacc : accepted level (c :: cs) = accepted level cs :=
        List.filter_cons_of_neg (by simpa using hc)
      rw [hacc, List.foldl_cons, FileLogAppender.log, if_neg hc, ih]

theorem length_file_le (hcs : ∀ c ∈ cs, level.toNat ≤ c.level.toNat) :
    (cs.foldl (FileLogAppender.log strftime) ⟨level, formatter, lastTime, file⟩).file.length ≤
      (file ++ records strftime formatter cs).length := by
  induction cs generalizing lastTime file with
  | nil => simp [records]
  | cons c cs ih =>
    rw [List.forall_mem_cons] at hcs
    rw [List.foldl_cons, records]
    by_cases hnow : c.now = lastTime
    · rw [log_same hcs.1 hnow, ← String.append_assoc]
      exact ih hcs.2
    · rw [log_other hcs.1 hnow]
      apply (ih hcs.2).trans
      rw [String.length_append file]
      exact Nat.le_add_left _ _

theorem file_eq_iff (hcs : ∀ c ∈ cs, level.toNat ≤ c.level.toNat) :
    (cs.foldl (FileLogAppender.log strftime) ⟨level, formatter, lastTime, file⟩).file =
        file ++ records strftime formatter cs ↔
      (file = "" ∨ ∀ c ∈ cs, c.now = lastTime) ∧
        cs.Pairwise fun c d => c.text strftime formatter = "" ∨ c.now = d.now := by
  induction cs generalizing lastTime file with
  | nil => simp [records]
  | cons c cs ih =>
    rw [List.forall_mem_cons] at hcs
    rw [List.foldl_cons, records, List.pairwise_cons, List.forall_mem_cons]
    have hlater : (∀ d ∈ cs, c.text strftime formatter = "" ∨ c.now = d.now) ↔
        (c.text strftime formatter = "" ∨ ∀ d ∈ cs, d.now = c.now) := by
      constructor
      · intro h
        by_cases ht : c.text strftime formatter = ""
        · exact .inl ht
        · exact .inr fun d hd => ((h d hd).resolve_left ht).symm
      · rintro (ht | h) d hd
        · exact .inl ht
        · exact .inr (h d hd).symm
    rw [hlater]
    by_cases hnow : c.now = lastTime
    · rw [log_same hcs.1 hnow, ← String.append_assoc, ih hcs.2, String.append_eq_empty_iff, hnow,
        and_or_right, and_assoc]
      simp only [true_and]
    · rw [log_other hcs.1 hnow]
      by_cases hfile : file = ""
      · rw [hfile, String.empty_append, ih hcs.2]
        simp only [true_or, true_and]
      · -- The text that was in the file is longer than nothing, so it is missing at the end.
        refine iff_of_false ?_ fun h => h.1.elim hfile fun hsame => hnow hsame.1
        intro heq
        have hle :=
          @length_file_le strftime level formatter c.now (c.text strftime formatter) cs hcs.2
        rw [heq, String.length_append file] at hle
        have hpos : file.length ≠ 0 := by simpa using hfile
        omega

/-- A file appender keeps every record exactly when no record that has a text is followed by one
of another second. -/
theorem keeps_records_iff (strftime : String → ℕ → String) (level : Level)
    (formatter : LogFormatter) (cs : List LogCall) :
    (cs.foldl (FileLogAppender.log strftime) (.new level formatter)).file =
        (FileLogAppender.new level formatter).file ++
          records strftime formatter (accepted level cs) ↔
      (accepted level cs).Pairwise fun c d =>
        c.text strftime formatter = "" ∨ c.now = d.now := by
  have hacc : ∀ c ∈ accepted level cs, level.toNat ≤ c.level.toNat := by
    intro c hc
    simpa using List.of_mem_filter hc
  rw [FileLogAppender.new, log_accepted, file_eq_iff hacc]
  simp

/-- Two records, one second apart: the first is lost. -/
theorem record_of_last_second_lost :
    let event : LogEvent := ⟨"root", "a.cpp", 1, 0, 1, 0, 0, "main", "x"⟩
    ([⟨10, .info, event⟩, ⟨11, .info, { event with content := "y" }⟩].foldl
        (FileLogAppender.log fun _ _ => "") (.new .debug ⟨"%m%n"⟩)).file = "y\n" ∧
      records (fun _ _ => "") ⟨"%m%n"⟩ (accepted .debug
        [⟨10, .info, event⟩, ⟨11, .info, { event with content := "y" }⟩]) = "x\ny\n" := by
  decide +kernel

end Append
end ApexStorm.Log
