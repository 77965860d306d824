import BlockText.Scheduler
import Mathlib.Data.List.Basic
import Mathlib.Data.List.Induction

/-!
# One conversion for a burst

What a scheduler answers is said by the log of its uses. A use asks for a conversion if it is a
request, or a notification that the scheduler does not leave out; a conversion that was asked for is
settled by a poll that fires and by a cancel. The deadline that the scheduler holds is a summary of
the log: it is there exactly while something that was asked for is not settled, and it lies the
delay after the last use that asked. Times may come in any order, as only the last one counts.
-/

namespace BlockText.Scheduler

/-! ## Uses and their log -/

/-- A use of a scheduler. A notification comes with the state of the busy flag at that moment. -/
inductive Call where
  | request (now : Nat)
  | notify (busy : Bool) (now : Nat)
  | cancel
  | poll (now : Nat)
  deriving DecidableEq

/-- The time at which a call asks for a conversion, if it does. A scheduler that watches the busy
flag leaves notifications out while it is taken. -/
def Call.asks? (watchesBusy : Bool) : Call → Option Nat
  | request now => some now
  | notify busy now => if watchesBusy && busy then none else some now
  | cancel => none
  | poll _ => none

/-- A call that was made, and whether it was a poll that fired. -/
structure Entry where
  call : Call
  fired : Bool
  deriving DecidableEq

/-- An entry settles what was asked for before it: a poll that fired, or a cancel. -/
def Entry.Settles (e : Entry) : Prop := e.call = .cancel ∨ e.fired = true

instance (e : Entry) : Decidable e.Settles := inferInstanceAs (Decidable (_ ∨ _))

/-- A scheduler after a call, and whether the call was a poll that fired. -/
def make (s : Scheduler) : Call → Scheduler × Bool
  | .request now => (s.request now, false)
  | .notify busy now => (s.notify busy now, false)
  | .cancel => (s.cancel, false)
  | .poll now => s.poll now

/-- A scheduler after some calls. -/
def after (s : Scheduler) (calls : List Call) : Scheduler :=
  calls.foldl (fun s c => (s.make c).1) s

/-- The calls that are made of a scheduler, each with whether it fired. -/
def log (s : Scheduler) : List Call → List Entry
  | [] => []
  | c :: calls => ⟨c, (s.make c).2⟩ :: (s.make c).1.log calls

theorem after_append (s : Scheduler) (calls calls' : List Call) :
    s.after (calls ++ calls') = (s.after calls).after calls' :=
  List.foldl_append

theorem log_append (s : Scheduler) (calls calls' : List Call) :
    s.log (calls ++ calls') = s.log calls ++ (s.after calls).log calls' := by
  induction calls generalizing s with
  | nil => rfl
  | cons c calls ih =>
    rw [List.cons_append, log, log, ih]
    rfl

theorem map_call_log (s : Scheduler) (calls : List Call) :
    (s.log calls).map Entry.call = calls := by
  induction calls generalizing s with
  | nil => rfl
  | cons c calls ih => rw [log, List.map_cons, ih]

/-- A poll either fires and gives the deadline up, or changes nothing. -/
theorem poll_cases (s : Scheduler) (now : Nat) :
    s.poll now = ({ s with deadline := none }, true) ∨ s.poll now = (s, false) := by
  unfold poll
  split
  · split
    · exact .inl rfl
    · exact .inr rfl
  · exact .inr rfl

/-! ## What holds since -/

section Since

variable {α : Type} {p q : α → Prop} {xs ys : List α} {x : α}

/-- `q` has held of everything since something of which `p` held. -/
def Since (q p : α → Prop) (xs : List α) : Prop :=
  ∃ earlier x later, xs = earlier ++ x :: later ∧ p x ∧ ∀ y ∈ later, q y

theorem not_since_nil : ¬ Since q p ([] : List α) := by
  rintro ⟨earlier, x, later, hxs, -⟩
  simp at hxs

/-- What holds since is decided by what comes last, and else by what held before. -/
theorem since_append_singleton : Since q p (xs ++ [x]) ↔ p x ∨ q x ∧ Since q p xs := by
  constructor
  · rintro ⟨earlier, y, later, hxs, hy, hlater⟩
    rcases later.eq_nil_or_concat' with rfl | ⟨later, z, rfl⟩
    · obtain ⟨-, hx⟩ := List.append_inj' hxs rfl
      obtain rfl := (List.cons.inj hx).1
      exact .inl hy
    · rw [← List.cons_append, ← List.append_assoc] at hxs
      obtain ⟨hbefore, hz⟩ := List.append_inj' hxs rfl
      obtain rfl := (List.cons.inj hz).1
      rw [List.forall_mem_append, List.forall_mem_singleton] at hlater
      exact .inr ⟨hlater.2, earlier, y, later, hbefore, hy, hlater.1⟩
  · rintro (hx | ⟨hx, earlier, y, later, rfl, hy, hlater⟩)
    · exact ⟨xs, x, [], rfl, hx, by simp⟩
    · refine ⟨earlier, y, later ++ [x], by simp, hy, ?_⟩
      exact List.forall_mem_append.mpr ⟨hlater, List.forall_mem_singleton.mpr hx⟩

/-- What holds since, holds since something after all that breaks it. -/
theorem Since.exists_mem (h : Since q p (xs ++ x :: ys)) (hq : ¬ q x) (hp : ¬ p x) :
    ∃ y ∈ ys, p y := by
  induction ys using List.reverseRecOn with
  | nil =>
    rcases since_append_singleton.mp h with hx | ⟨hx, -⟩
    · exact absurd hx hp
    · exact absurd hx hq
  | append_singleton ys y ih =>
    rw [← List.cons_append, ← List.append_assoc] at h
    rcases since_append_singleton.mp h with hy | ⟨-, h⟩
    · exact ⟨y, by simp, hy⟩
    · obtain ⟨z, hz, hpz⟩ := ih h
      exact ⟨z, List.mem_append_left _ hz, hpz⟩

end Since

/-! ## What a log says -/

variable {watches : Bool} {entries : List Entry} {e : Entry} {t : Nat}

/-- A conversion was asked for, and since then nothing has settled it. -/
def Outstanding (watches : Bool) : List Entry → Prop :=
  Since (fun e => ¬ e.Settles) fun e => (e.call.asks? watches).isSome

/-- The last call that asked for a conversion did so at time `t`. -/
def LastAsked (watches : Bool) (t : Nat) : List Entry → Prop :=
  Since (fun e => e.call.asks? watches = none) fun e => e.call.asks? watches = some t

/-- Something was asked for last, if anything was asked for. -/
theorem Outstanding.exists_lastAsked (h : Outstanding watches entries) :
    ∃ t, LastAsked watches t entries := by
  induction entries using List.reverseRecOn with
  | nil => exact absurd h not_since_nil
  | append_singleton entries e ih =>
    cases hasks : e.call.asks? watches with
    | some t => exact ⟨t, since_append_singleton.mpr (.inl hasks)⟩
    | none =>
      rcases since_append_singleton.mp h with hsome | ⟨-, h⟩
      · rw [hasks] at hsome
        cases hsome
      · obtain ⟨t, ht⟩ := ih h
        exact ⟨t, since_append_singleton.mpr (.inr ⟨hasks, ht⟩)⟩

/-- The deadline that a log leaves: the delay after what was asked for last, while that is not
settled. -/
def Due (watches : Bool) (delay deadline : Nat) (entries : List Entry) : Prop :=
  Outstanding watches entries ∧ ∃ t, LastAsked watches t entries ∧ t + delay = deadline

/-- A call that asks sets the deadline anew. -/
theorem due_of_asks {delay deadline : Nat} (h : e.call.asks? watches = some t) :
    Due watches delay deadline (entries ++ [e]) ↔ t + delay = deadline := by
  simp [Due, Outstanding, LastAsked, since_append_singleton, h]

/-- A call that settles leaves none. -/
theorem not_due_of_settles {delay deadline : Nat} (h : e.call.asks? watches = none)
    (hs : e.Settles) : ¬ Due watches delay deadline (entries ++ [e]) := by
  simp [Due, Outstanding, since_append_singleton, h, hs]

/-- Any other call leaves the deadline as it was. -/
theorem due_of_idle {delay deadline : Nat} (h : e.call.asks? watches = none) (hs : ¬ e.Settles) :
    Due watches delay deadline (entries ++ [e]) ↔ Due watches delay deadline entries := by
  simp [Due, Outstanding, LastAsked, since_append_singleton, h, hs]

/-! ## The deadline is a summary of the log -/

/-- A scheduler with its settings holds the deadline that a log leaves. -/
structure Summarizes (watches : Bool) (delay : Nat) (entries : List Entry) (s : Scheduler) :
    Prop where
  watchesBusy : s.watchesBusy = watches
  delay_eq : s.delay = delay
  deadline : ∀ d, s.deadline = some d ↔ Due watches delay d entries

namespace Summarizes

variable {delay now : Nat} {s : Scheduler}

/-- The scheduler after a call that asks. -/
theorem request (h : Summarizes watches delay entries s) (he : e.call.asks? watches = some now) :
    Summarizes watches delay (entries ++ [e]) (s.request now) where
  watchesBusy := h.watchesBusy
  delay_eq := h.delay_eq
  deadline d := by
    rw [due_of_asks he, ← h.delay_eq, Scheduler.request, Option.some.injEq]

/-- The scheduler after a call that settles. -/
theorem settle (h : Summarizes watches delay entries s) (he : e.call.asks? watches = none)
    (hs : e.Settles) : Summarizes watches delay (entries ++ [e]) { s with deadline := none } where
  watchesBusy := h.watchesBusy
  delay_eq := h.delay_eq
  deadline d := by
    refine ⟨fun hd => ?_, fun hd => absurd hd (not_due_of_settles he hs)⟩
    cases hd

/-- The scheduler after any other call. -/
theorem idle (h : Summarizes watches delay entries s) (he : e.call.asks? watches = none)
    (hs : ¬ e.Settles) : Summarizes watches delay (entries ++ [e]) s where
  watchesBusy := h.watchesBusy
  delay_eq := h.delay_eq
  deadline d := (h.deadline d).trans (due_of_idle he hs).symm

/-- A poll fires exactly if there is a deadline and it has come. -/
theorem poll_iff (h : Summarizes watches delay entries s) (now : Nat) : (s.poll now).2 = true ↔
    Outstanding watches entries ∧ ∃ t, LastAsked watches t entries ∧ t + delay ≤ now := by
  unfold poll
  cases hd : s.deadline with
  | none =>
    refine ⟨fun hfired => absurd hfired Bool.false_ne_true, ?_⟩
    rintro ⟨houtstanding, t, ht, -⟩
    rw [(h.deadline (t + delay)).mpr ⟨houtstanding, t, ht, rfl⟩] at hd
    cases hd
  | some d =>
    obtain ⟨houtstanding, t, ht, rfl⟩ := (h.deadline d).mp hd
    constructor
    · intro hfired
      refine ⟨houtstanding, t, ht, ?_⟩
      by_contra hlate
      simp [hlate] at hfired
    · rintro ⟨-, t', ht', hle⟩
      -- the deadline is that of any call that was the last to ask
      have hsame : s.deadline = some (t' + delay) := (h.deadline _).mpr ⟨houtstanding, t', ht', rfl⟩
      rw [hd, Option.some.injEq] at hsame
      simp [hsame, hle]

theorem isPending_iff (h : Summarizes watches delay entries s) :
    s.isPending = true ↔ Outstanding watches entries := by
  rw [isPending, Option.isSome_iff_exists]
  constructor
  · rintro ⟨d, hd⟩
    exact ((h.deadline d).mp hd).1
  · intro houtstanding
    obtain ⟨t, ht⟩ := houtstanding.exists_lastAsked
    exact ⟨t + delay, (h.deadline _).mpr ⟨houtstanding, t, ht, rfl⟩⟩

/-- One call keeps the summary. -/
theorem make (h : Summarizes watches delay entries s) (c : Call) :
    Summarizes watches delay (entries ++ [⟨c, (s.make c).2⟩]) (s.make c).1 := by
  cases c with
  | request now => exact h.request rfl
  | notify busy now =>
    show Summarizes _ _ _ (s.notify busy now)
    unfold notify
    rw [h.watchesBusy]
    split
    · next hbusy =>
      exact h.idle (by simp [Call.asks?, hbusy]) (by simp [Entry.Settles, Scheduler.make])
    · next hbusy => exact h.request (by simp [Call.asks?, hbusy])
  | cancel => exact h.settle rfl (.inl rfl)
  | poll now =>
    show Summarizes _ _ (entries ++ [⟨.poll now, (s.poll now).2⟩]) (s.poll now).1
    rcases s.poll_cases now with hpoll | hpoll <;> rw [hpoll]
    · exact h.settle rfl (.inr rfl)
    · exact h.idle rfl (by simp [Entry.Settles])

end Summarizes

/-- After any calls a fresh scheduler summarizes their log. -/
theorem summarizes_after (watches : Bool) (delay : Nat) (calls : List Call) :
    let s : Scheduler := { delay := delay, watchesBusy := watches }
    Summarizes watches delay (s.log calls) (s.after calls) := by
  intro s
  induction calls using List.reverseRecOn with
  | nil =>
    refine ⟨rfl, rfl, fun d => ⟨fun hd => ?_, fun hd => absurd hd.1 not_since_nil⟩⟩
    cases hd
  | append_singleton calls c ih =>
    rw [log_append, after_append]
    exact ih.make c

/-- For every delay and after any calls: a poll fires exactly if a conversion was asked for that no
poll that fired and no cancel has settled since, and the delay has passed since the last call that
asked. So between two polls that fire a conversion is asked for; and one is pending exactly while
what was asked for is not settled. -/
theorem fires_once_per_burst (watches : Bool) (delay : Nat) (calls : List Call) :
    let s : Scheduler := { delay := delay, watchesBusy := watches }
    (∀ now, ((s.after calls).poll now).2 = true ↔ Outstanding watches (s.log calls) ∧
      ∃ t, LastAsked watches t (s.log calls) ∧ t + delay ≤ now) ∧
    (∀ earlier between now now', calls = earlier ++ .poll now :: between →
      ((s.after earlier).poll now).2 = true → ((s.after calls).poll now').2 = true →
        ∃ c ∈ between, (c.asks? watches).isSome) ∧
    ((s.after calls).isPending = true ↔ Outstanding watches (s.log calls)) := by
  intro s
  have h : Summarizes watches delay (s.log calls) (s.after calls) :=
    summarizes_after watches delay calls
  refine ⟨h.poll_iff, ?_, h.isPending_iff⟩
  rintro earlier between now now' rfl hfirst hsecond
  have houtstanding := ((h.poll_iff now').mp hsecond).1
  rw [log_append] at houtstanding
  -- the first poll settles all before it
  obtain ⟨e, he, hasks⟩ := houtstanding.exists_mem
    (fun hopen => hopen (.inr hfirst)) (by simp [Call.asks?])
  refine ⟨e.call, ?_, hasks⟩
  have hmem := List.mem_map_of_mem (f := Entry.call) he
  rwa [map_call_log] at hmem

/-- A burst with a notification that is left out, and times that run backwards: what was asked for
last, at 3, is due at 13. The poll then fires, and the one after it fires for the request at 5. -/
theorem fires_once_per_burst_backwards :
    let s : Scheduler := { delay := 10, watchesBusy := true }
    let burst : List Call := [.notify false 8, .request 3, .notify true 20, .poll 12]
    ((s.after burst).poll 13).2 = true ∧
    ((s.after (burst ++ .poll 13 :: [.request 5])).poll 15).2 = true ∧
    (∃ c ∈ [Call.request 5], (c.asks? true).isSome) ∧
    ¬ Outstanding true (s.log (burst ++ [.poll 13])) := by
  intro s burst
  have hfirst : ((s.after burst).poll 13).2 = true := by decide
  have hsecond : ((s.after (burst ++ .poll 13 :: [.request 5])).poll 15).2 = true := by decide
  obtain ⟨-, hbetween, -⟩ := fires_once_per_burst true 10 (burst ++ .poll 13 :: [.request 5])
  obtain ⟨-, -, hpending⟩ := fires_once_per_burst true 10 (burst ++ [.poll 13])
  refine ⟨hfirst, hsecond, hbetween burst _ 13 15 rfl hfirst hsecond, fun houtstanding => ?_⟩
  have := hpending.mpr houtstanding
  revert this
  decide

end BlockText.Scheduler
