import Mathlib
import DistributedPis.Library.Run
import DistributedPis.Library.Snapshot
import DistributedPis.Pi.Receiver

/-! An application that reads the messages of one sender while the interrupt side completes
them. `get_fd` hands out a copy of the entry; `get_msg` pops from the copy, the table keeps every
message it ever queued, and the two queue headers share the `next` pointers of the nodes. -/
namespace DistributedPis
open Library

/-- The application's copy of one entry beside the table, and what happened so far. -/
structure Reader where
  t : FileTable
  fds : Fd
  /-- What `get_msg` returned, the last one first. -/
  returned : List ℕ
  completed : ℕ
  /-- The number of the newest message that was returned. -/
  top : ℕ
  /-- The same, at the time the copy was taken. -/
  mark : ℕ

inductive ReadEvent where
  | packet (p : Packet)
  | refresh
  | read

namespace Reader

/-- The application starts with a copy of the initial entry. -/
def start (i : Fin 17) : Reader := ⟨.init, FileTable.init.fds i, [], 0, 0, 0⟩

/-- `get_msg` on an empty queue panics and ends the run, so a run goes on exactly if `has_msg`
held before every `get_msg`. -/
def step (i : Fin 17) (s : Reader) : ReadEvent → Option Reader
  | .packet p => some {s with
      t := s.t.recieveMsgHandler p
      completed := s.completed + if p.fd = i ∧ s.t.completes p then 1 else 0}
  | .refresh => (s.t.getFd i).map (fun f => {s with fds := f, mark := s.top})
  | .read => (s.fds.getMsg s.t.next).map (fun (id,f) => {s with
      fds := f
      returned := id::s.returned
      top := max s.top s.fds.msgQ.cnt})

/-- `get_msg` finds more messages in the copy than the newest one that was returned before the
copy was taken. -/
def NewRead (s : Reader) : ReadEvent → Prop
  | .read => s.mark < s.fds.msgQ.cnt
  | _ => True

/-- Every read of a run is new. -/
def AllNew (i : Fin 17) : List ReadEvent → Reader → Prop
  | [], _ => True
  | e::es, s => s.NewRead e ∧ (match s.step i e with
    | some s' => AllNew i es s'
    | none => True)

/-- The messages completed so far, in order, with the application's copy of their queue. -/
structure Reading (i : Fin 17) (s : Reader) (log : List ℕ) : Prop where
  table : ∃ owner ids rs, Represents s.t owner ids rs ∧ ids i = log.reverse
  copy : IsQueue s.t.next s.fds.msgQ (log.take s.fds.msgQ.cnt).reverse
  completed : log.length = s.completed

section Steps
variable {i : Fin 17} {s s' : Reader} {log : List ℕ}

lemma start_reading (i : Fin 17) : (start i).Reading i [] :=
  ⟨⟨_,_,_,init_represents,rfl⟩, .zero, rfl⟩

lemma start_unrepeated (i : Fin 17) :
    Unrepeated [] (start i).returned (start i).fds.msgQ.cnt (start i).top (start i).mark := by
  constructor <;> simp [start]

lemma Reading.cnt_le (h : s.Reading i log) : s.fds.msgQ.cnt ≤ log.length := by
  have := h.copy.cnt
  rw [List.length_reverse, List.length_take] at this
  omega

lemma Reading.log_nodup (h : s.Reading i log) : log.Nodup := by
  obtain ⟨_,_,_,hrep,hids⟩ := h.table
  have := (hrep i).queue.nodup
  rwa [hids, List.nodup_reverse] at this

/-- A header keeps its list when the list lies at the end of one that is intact. -/
lemma suffix_queue {next next' : ℕ → Option ℕ} {q : Queue ℕ} {p : Option ℕ} {xs ys : List ℕ}
    (hq : IsQueue next q xs) (hp : Path next' p (ys ++ xs) none) : IsQueue next' q xs := by
  obtain ⟨m,_,hm⟩ := path_append.mp hp
  have hhead : m = q.head := by
    rw [hq.head]
    cases xs with
    | nil => exact hm
    | cons x xs => exact hm.1
  exact ⟨hhead ▸ hm, hq.tail, hq.cnt⟩

/-- A packet appends at most one message to the log. -/
lemma step_packet (h : s.Reading i log) (p : Packet) (hs : s.step i (.packet p) = some s') :
    (∃ new, s'.Reading i (log ++ new)) ∧ s'.fds = s.fds ∧ s'.returned = s.returned ∧
      s'.top = s.top ∧ s'.mark = s.mark := by
  cases hs
  refine ⟨?_, rfl, rfl, rfl, rfl⟩
  obtain ⟨owner,ids,rs,hrep,hids⟩ := h.table
  obtain ⟨owner',ids',hrep',hids'⟩ := handler_refines p hrep
  have hcnt := h.cnt_le
  have hlog : ∃ new : List ℕ, Function.update ids p.fd ids' i = (log ++ new).reverse ∧
      new.length = if p.fd = i ∧ s.t.completes p then 1 else 0 := by
    by_cases hi : p.fd = i
    · subst hi
      rw [Function.update_self, hids', hids]
      by_cases hc : s.t.completes p
      · exact ⟨[(s.t.fds p.fd).curMsg], by simp [hc], by simp [hc]⟩
      · exact ⟨[], by simp [hc], by simp [hc]⟩
    · rw [Function.update_of_ne (Ne.symm hi), hids]
      exact ⟨[], by simp, by simp [hi]⟩
  obtain ⟨new,hnew,hlen⟩ := hlog
  refine ⟨new, ⟨_,_,_,hrep',hnew⟩, ?_, by simp [h.completed, hlen]⟩
  have hpath := (hrep' i).queue.path
  dsimp only
  rw [List.take_append_of_le_length hcnt]
  rw [hnew, List.reverse_append, ← List.take_append_drop s.fds.msgQ.cnt log,
    List.reverse_append, ← List.append_assoc] at hpath
  exact suffix_queue h.copy hpath

lemma step_refresh (h : s.Reading i log) (hs : s.step i .refresh = some s') :
    s'.Reading i log ∧ s'.fds.msgQ.cnt = log.length ∧ s'.returned = s.returned ∧
      s'.top = s.top ∧ s'.mark = s.top := by
  have hfd : s.t.getFd i = some (s.t.fds i) := by simp [FileTable.getFd]
  simp only [step, hfd, Option.map_some, Option.some.injEq] at hs
  subst hs
  obtain ⟨owner,ids,rs,hrep,hids⟩ := h.table
  have hqueue := (hrep i).queue
  have hcnt : (s.t.fds i).msgQ.cnt = log.length := by rw [hqueue.cnt, hids, List.length_reverse]
  refine ⟨⟨⟨_,_,_,hrep,hids⟩, ?_, h.completed⟩, hcnt, rfl, rfl, rfl⟩
  dsimp only
  rwa [hcnt, List.take_length, ← hids]

/-- A read returns the newest message of the copy and leaves the ones before it. -/
lemma step_read (h : s.Reading i log) (hs : s.step i .read = some s') :
    ∃ k id, s.fds.msgQ.cnt = k+1 ∧ log[k]? = some id ∧ s'.Reading i log ∧
      s'.fds.msgQ.cnt = k ∧ s'.returned = id::s.returned ∧ s'.top = max s.top (k+1) ∧
      s'.mark = s.mark := by
  have hne : s.fds.msgQ.empty = false := by
    by_contra hc
    simp [step, Fd.getMsg, hc] at hs
  have hcnt := h.cnt_le
  have hcopy := h.copy
  cases hk : s.fds.msgQ.cnt with
  | zero =>
    rw [hk] at hcopy
    have := hcopy.empty_iff.mpr rfl
    simp [hne] at this
  | succ k =>
    have hlt : k < log.length := by omega
    rw [hk, List.take_succ_eq_append_getElem hlt, List.reverse_append, List.reverse_singleton,
      List.singleton_append] at hcopy
    obtain ⟨hpop,hrest⟩ := hcopy.pop
    simp only [step, Fd.getMsg, hne, Bool.false_eq_true, if_false, hpop, Option.map_some,
      Option.some.injEq] at hs
    subst hs
    have hcnt' : (s.fds.msgQ.pop s.t.next).2.cnt = k := by
      have := hrest.cnt
      rw [List.length_reverse, List.length_take] at this
      omega
    refine ⟨k, log[k], rfl, List.getElem?_eq_getElem hlt, ⟨h.table, ?_, h.completed⟩, hcnt', rfl,
      by simp [hk], rfl⟩
    dsimp only
    rw [hcnt']
    exact hrest

end Steps

/-- What the application relies on: nothing is handed out twice, nor more than was completed. -/
def ConsumedOnce (s : Reader) : Prop := s.returned.Nodup ∧ s.returned.length ≤ s.completed

/-- The history that justifies a state. -/
def Justified (i : Fin 17) (s : Reader) (log : List ℕ) : Prop :=
  s.Reading i log ∧ Unrepeated log s.returned s.fds.msgQ.cnt s.top s.mark

lemma Justified.consumedOnce {i : Fin 17} {s : Reader} {log : List ℕ} (h : s.Justified i log) :
    s.ConsumedOnce := by
  refine ⟨h.2.nodup, ?_⟩
  have hsub : s.returned ⊆ log := fun id hid => List.mem_of_mem_take (h.2.old id hid)
  exact h.1.completed ▸ (h.2.nodup.subperm hsub).length_le

/-- One step keeps the history, or it is a read that repeats a message. -/
theorem step_justified {i : Fin 17} {s s' : Reader} {log : List ℕ} {e : ReadEvent}
    (h : s.Justified i log) (hs : s.step i e = some s') :
    (s.NewRead e → ∃ log', s'.Justified i log') ∧ (¬ s.NewRead e → ¬ s'.returned.Nodup) := by
  obtain ⟨hr,hu⟩ := h
  cases e with
  | packet p =>
    obtain ⟨⟨new,hnew⟩,hfds,hret,htop,hmark⟩ := step_packet hr p hs
    refine ⟨fun _ => ⟨_, hnew, ?_⟩, fun hn => absurd trivial hn⟩
    rw [hfds, hret, htop, hmark]
    exact hu.grow hr.cnt_le new
  | refresh =>
    obtain ⟨hr',hcnt,hret,htop,hmark⟩ := step_refresh hr hs
    refine ⟨fun _ => ⟨log, hr', ?_⟩, fun hn => absurd trivial hn⟩
    rw [hcnt, hret, htop, hmark]
    exact hu.refresh
  | read =>
    obtain ⟨k,id,hk,hid,hr',hcnt,hret,htop,hmark⟩ := step_read hr hs
    rw [NewRead, hk]
    rw [hk] at hu
    constructor
    · intro hnew
      refine ⟨log, hr', ?_⟩
      rw [hcnt, hret, htop, hmark]
      exact hu.read hr.log_nodup hid hnew
    · intro hold hc
      rw [hret, List.nodup_cons] at hc
      exact hc.1 (hu.repeated hid hold)

/-- What was returned stays returned. -/
lemma step_returned {i : Fin 17} {s s' : Reader} {e : ReadEvent} (hs : s.step i e = some s')
    (h : ¬ s.returned.Nodup) : ¬ s'.returned.Nodup := by
  cases e with
  | packet p => cases hs; exact h
  | refresh =>
    obtain ⟨f,_,rfl⟩ := Option.map_eq_some_iff.mp hs
    exact h
  | read =>
    obtain ⟨⟨id,f⟩,_,rfl⟩ := Option.map_eq_some_iff.mp hs
    exact fun hc => h (List.nodup_cons.mp hc).2

theorem run_consumedOnce {i : Fin 17} {es : List ReadEvent} {s u : Reader} {log : List ℕ}
    (h : s.Justified i log) (hrun : es.foldlM (step i) s = some u) :
    u.ConsumedOnce ↔ AllNew i es s := by
  induction es generalizing s log with
  | nil => cases hrun; exact iff_of_true h.consumedOnce trivial
  | cons e es ih =>
    rw [List.foldlM_cons] at hrun
    obtain ⟨s',hs,hrun⟩ := Option.bind_eq_some_iff.mp hrun
    have hstep := step_justified h hs
    by_cases hnew : s.NewRead e
    · obtain ⟨log',h'⟩ := hstep.1 hnew
      rw [ih h' hrun, AllNew, hs]
      exact (and_iff_right hnew).symm
    · refine iff_of_false (fun hc => ?_) (fun hc => hnew hc.1)
      exact foldlM_invariant (P := fun s => ¬ s.returned.Nodup)
        (fun _ _ _ hp ht => step_returned ht hp) (hstep.2 hnew) hrun hc.1

end Reader

/-- In a run of completions, refreshes and reads, every message is consumed once exactly if
every read is new. -/
theorem reads_consumedOnce_iff {i : Fin 17} {es : List ReadEvent} {s : Reader}
    (h : es.foldlM (Reader.step i) (.start i) = some s) :
    s.ConsumedOnce ↔ Reader.AllNew i es (.start i) :=
  Reader.run_consumedOnce ⟨Reader.start_reading i, Reader.start_unrepeated i⟩ h

/-- The packets of one byte from node 1. -/
def oneByte : List ReadEvent := (cmdPckts (fun _ => 0) espSendData 2 1 [7]).map .packet

/-- Look once, take one message. -/
def lookAndTake : List ReadEvent := [.refresh,.read]

theorem reads_consumedOnce_iff_each :
    ∃ s, (oneByte ++ lookAndTake ++ oneByte ++ lookAndTake).foldlM (Reader.step 1)
      (.start 1) = some s ∧ s.ConsumedOnce := by
  have hnew : Reader.AllNew 1 (oneByte ++ lookAndTake ++ oneByte ++ lookAndTake) (.start 1) :=
    ⟨trivial,trivial,trivial,Nat.zero_lt_one,trivial,trivial,trivial,Nat.one_lt_two,trivial⟩
  exact ⟨_, rfl, (reads_consumedOnce_iff rfl).mpr hnew⟩

/-- One message is read again under a second copy of the entry. -/
theorem reread_repeats :
    ∃ s, (oneByte ++ lookAndTake ++ lookAndTake).foldlM (Reader.step 1) (.start 1) = some s ∧
      ¬ s.returned.Nodup ∧ s.completed < s.returned.length :=
  ⟨_, rfl, by decide, by decide⟩

end DistributedPis
