import Fell.Lib.AppendLog
import Fell.Storage.LifeLog

/-!
# A partition is a log

Under its segments, its queue and its I/O thread, a partition is a log that records are appended to
and read from (`AppendLog`). An append takes place when the record is queued, and a fetch when it
looks at the files. What is written can be read from then on, and a clean restart changes nothing.

* `Logged.run_appendLog`: each step of the store is one of the log, or none;
* `Run.appendLog`: so is each run, over any number of lives.
-/

namespace Fell.Storage.PartitionStore

variable {κ : Type} {s s' s₀ : PartitionStore κ} {log : List Record} {e : Event κ}

theorem length_wholeLog_le (s : PartitionStore κ) :
    s.wholeLog.length ≤ (s.wholeLog ++ s.inFlight ++ s.queue).length := by
  rw [List.append_assoc, List.length_append]
  exact Nat.le_add_right _ _

/-- The log: what is in the files can be read, and what is in flight and queued follows it. -/
def appendLog (s : PartitionStore κ) : AppendLog Record where
  log := s.wholeLog ++ s.inFlight ++ s.queue
  readable := s.wholeLog.length
  readable_le := s.length_wholeLog_le

/-- What happens to the log in a step. -/
def Event.onLog : Event κ → List (AppendLog.Event Record)
  | .appended cmd => [.appended cmd.offset.toNat cmd]
  | .wrote _ _ => [.extended]
  | .fetched offset maxCount (some found) => [.read offset.toNat maxCount found]
  | _ => []

/-- What happens to the log in a step of a life. -/
def LifeEvent.onLog : LifeEvent κ → List (AppendLog.Event Record)
  | .lived e => e.onLog
  | .reopened _ => [.extended]

theorem take_readable_appendLog (s : PartitionStore κ) :
    s.appendLog.log.take s.appendLog.readable = s.wholeLog := by
  dsimp only [appendLog]
  rw [List.append_assoc, List.take_left]

theorem Logged.log_appendLog (h : Logged log s) : s.appendLog.log = log := h.log_eq

/-- A fetch finds a piece of what can be read, from the offset on. -/
theorem Logged.fetch_readable (h : Logged log s) (o : UInt64) (n : ℕ) :
    ∃ rs, (s.fetch o n).1 = some rs ∧ rs.length ≤ n ∧
      rs <+: (s.appendLog.log.take s.appendLog.readable).drop o.toNat := by
  obtain ⟨rs, hrs, hlen, hpre⟩ := h.linked.indexed.fetch_isPrefix h.head o n
  rw [UInt64.toNat_zero, Nat.sub_zero, ← s.take_readable_appendLog] at hpre
  exact ⟨rs, hrs, hlen, hpre⟩

/-- A step of the store is one of the log, or none. -/
theorem Logged.run_appendLog (h : Logged log s) (h' : Logged (log ++ e.accepted) s')
    (hnum : Numbered 0 (log ++ e.accepted)) (hl : s.Loaded) (hst : Step s e s') :
    Run AppendLog.Step s.appendLog e.onLog s'.appendLog := by
  have hlog : s'.appendLog.log = s.appendLog.log ++ e.accepted := by
    rw [h.log_appendLog, h'.log_appendLog]
  have hread : s'.appendLog.readable = s.appendLog.readable + e.written.length := by
    simp only [appendLog]
    rw [hst.wholeLog_eq hl h.linked.indexed, List.length_append]
  have hsame (hacc : e.accepted = []) (hwritten : e.written = []) :
      s'.appendLog = s.appendLog := by
    rw [hacc, List.append_nil] at hlog
    rw [hwritten] at hread
    exact AppendLog.ext hlog hread
  cases e with
  | appended cmd =>
    have hpos : cmd.offset.toNat = s.appendLog.log.length := by
      have hoff := (numbered_cons.1 (numbered_append.1 hnum).2).1
      rwa [Nat.zero_add, ← h.log_appendLog] at hoff
    rw [Event.onLog, hpos]
    exact .single (.append cmd hlog hread)
  | wrote base batch =>
    exact .single (.extend (hlog.trans (List.append_nil _)) (hread ▸ Nat.le_add_right _ _))
  | fetched offset maxCount found =>
    rw [hsame rfl rfl]
    obtain ⟨rs, hrs, hlen, hpre⟩ := h.fetch_readable offset maxCount
    cases hst with
    | fetch =>
      rw [hrs]
      exact .single (.read hlen hpre)
  | _ =>
    rw [hsame rfl rfl]
    exact .nil

/-- A step of a life is one of the log, or none. -/
theorem LifeStep.run_appendLog {les : List (LifeEvent κ)} {e : LifeEvent κ} (h : InLog les s)
    (hlt : (acceptedInLife (les ++ [e])).length < 2 ^ 64) (hst : LifeStep s e s') :
    Run AppendLog.Step s.appendLog e.onLog s'.appendLog := by
  have hlt₀ : (acceptedInLife les).length < 2 ^ 64 := by
    rw [acceptedInLife_snoc, List.length_append] at hlt
    omega
  have h' := hst.inLog h hlt₀
  have hlogged := h.logged hlt₀
  have hlogged' := h'.logged hlt
  have hnum := h'.numbered hlt
  rw [acceptedInLife_snoc] at hlogged' hnum
  cases hst with
  | live hst =>
    obtain ⟨s₀, es', hf, -, -, hrun, -⟩ := h
    exact hlogged.run_appendLog hlogged' hnum (Run.loaded hrun hf.loaded) hst
  | reopen options hstop =>
    rw [LifeEvent.accepted, List.append_nil] at hlogged'
    -- Nothing is queued in a store that is opened, so all of its log can be read.
    have hlog : («open» s.dir options : PartitionStore κ).appendLog.log = s.appendLog.log := by
      rw [hlogged.log_appendLog, hlogged'.log_appendLog]
    refine .single (.extend hlog ?_)
    have hall : («open» s.dir options : PartitionStore κ).appendLog.readable =
        («open» s.dir options : PartitionStore κ).appendLog.log.length := by
      simp only [appendLog]
      rw [List.append_assoc]
      exact congrArg List.length (List.append_nil _).symm
    rw [hall, hlog]
    exact s.appendLog.readable_le

/-- A run of a store, in one life or several, is one of the log. -/
theorem Run.appendLog {les es : List (LifeEvent κ)} (hrun : Run LifeStep s₀ es s)
    (h : InLog les s₀) (hlt : (acceptedInLife (les ++ es)).length < 2 ^ 64) :
    InLog (les ++ es) s ∧
      Run AppendLog.Step s₀.appendLog (es.flatMap LifeEvent.onLog) s.appendLog := by
  refine hrun.invariant (I := fun es s => (acceptedInLife (les ++ es)).length < 2 ^ 64 →
    InLog (les ++ es) s ∧ Run AppendLog.Step s₀.appendLog (es.flatMap LifeEvent.onLog) s.appendLog)
    (fun _ => ⟨(List.append_nil les).symm ▸ h, .nil⟩) ?_ hlt
  intro es s e s' _ ih hst hlt
  rw [← List.append_assoc] at hlt ⊢
  have hlt₀ : (acceptedInLife (les ++ es)).length < 2 ^ 64 := by
    rw [acceptedInLife_snoc, List.length_append] at hlt
    omega
  obtain ⟨hin, hr⟩ := ih hlt₀
  refine ⟨hst.inLog hin hlt₀, ?_⟩
  rw [List.flatMap_append, List.flatMap_singleton]
  exact hr.append (hst.run_appendLog hin hlt)

end Fell.Storage.PartitionStore
