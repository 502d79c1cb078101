import TypeForge.Build.Watcher
import TypeForge.Proofs.Build.Search

/-!
# A watcher reports every change once

A session is a file system that is changed from outside and a watcher that polls it now and then.
To say what a poll should report, a session also keeps the file system as it was when a poll
succeeded last; the watcher does not know it.  The invariant is that what the watcher remembers is
what a search of that file system gives.  A poll therefore compares the sources of now with those
of then.

The step is one event; a run goes through events one by one.
-/

namespace TypeForge

/-! ## Times -/

section

variable {found : List Path} {time? : Path → Option Nat}

end

namespace Watcher

variable {disk : Disk} {root : Path} {w : Watcher}

theorem poll_eq_ok_iff {changed : List Path} {w' : Watcher} :
    w.poll disk = .ok (changed, w') ↔ ∃ times, timesAt disk w.root = .ok times ∧
      changed = (times.filter w.isChanged).map Prod.fst ∧ w' = { w with seen := times } := by
  rw [poll, except_bind_eq_ok_iff]
  refine exists_congr fun times => and_congr_right fun _ => ?_
  constructor
  · intro h
    cases h
    exact ⟨rfl, rfl⟩
  · rintro ⟨rfl, rfl⟩
    rfl

end Watcher

/-! ## Sessions -/

/-- What can happen to a file system that is watched. -/
inductive Event where
  | write (p : Path) (contents : ByteArray) (modified : Nat)
  | touch (p : Path) (modified : Nat)
  | makeDir (p : Path)
  | remove (p : Path)
  | poll

/-- A file system and its watcher, and the file system as it was when a poll succeeded last. -/
structure Session where
  disk : Disk
  watcher : Watcher
  polled : Disk

namespace Session

/-- What an event does; one that fails does nothing. -/
def step (s : Session) : Event → Session
  | .write p contents modified => { s with disk := s.disk.put p contents modified }
  | .touch p modified => { s with disk := (s.disk.touch p modified).toOption.getD s.disk }
  | .makeDir p => { s with disk := s.disk.makeDir p }
  | .remove p => { s with disk := (s.disk.remove p).toOption.getD s.disk }
  | .poll =>
    match s.watcher.poll s.disk with
    | .ok (_, w) => { s with watcher := w, polled := s.disk }
    | .error _ => s

/-- What a course of events does. -/
def run (s : Session) (events : List Event) : Session := events.foldl step s

variable {s : Session} {root : Path}

/-- The watcher of `root` remembers the file system of the last successful poll. -/
structure Faithful (s : Session) (root : Path) : Prop where
  disk : s.disk.WellFormed
  polled : s.polled.WellFormed
  root_eq : s.watcher.root = root
  seen : Watcher.timesAt s.polled root = .ok s.watcher.seen

theorem wellFormed_getD {disk : Disk} {result : Except IoError Disk} (hdisk : disk.WellFormed)
    (hresult : ∀ disk', result = .ok disk' → disk'.WellFormed) :
    (result.toOption.getD disk).WellFormed := by
  cases result with
  | error e => exact hdisk
  | ok disk' => exact hresult disk' rfl

theorem step_poll_of_ok {changed : List Path} {w : Watcher} (h : s.watcher.poll s.disk = .ok (changed, w)) :
    s.step .poll = { s with watcher := w, polled := s.disk } := by
  rw [step, h]

theorem step_poll_of_error {e : IoError} (h : s.watcher.poll s.disk = .error e) : s.step .poll = s := by
  rw [step, h]

/-- **Every event keeps a session faithful.** -/
theorem Faithful.step (h : s.Faithful root) (event : Event) : (s.step event).Faithful root := by
  cases event with
  | write p contents modified => exact ⟨h.disk.put p contents modified, h.polled, h.root_eq, h.seen⟩
  | touch p modified =>
    exact ⟨wellFormed_getD h.disk fun disk' => h.disk.touch, h.polled, h.root_eq, h.seen⟩
  | makeDir p => exact ⟨h.disk.makeDir p, h.polled, h.root_eq, h.seen⟩
  | remove p => exact ⟨wellFormed_getD h.disk fun disk' => h.disk.remove, h.polled, h.root_eq, h.seen⟩
  | poll =>
    cases hpoll : s.watcher.poll s.disk with
    | error e =>
      rw [step_poll_of_error hpoll]
      exact h
    | ok result =>
      obtain ⟨times, htimes, -, hw⟩ := Watcher.poll_eq_ok_iff.1 hpoll
      rw [step_poll_of_ok hpoll, hw]
      rw [h.root_eq] at htimes
      exact ⟨h.disk, h.disk, h.root_eq, htimes⟩

theorem Faithful.run (h : s.Faithful root) (events : List Event) : (s.run events).Faithful root := by
  induction events generalizing s with
  | nil => exact h
  | cons event events ih => exact ih (h.step event)

end Session

end TypeForge
