import DistributedPis.Library.Run
import DistributedPis.Pi.Receiver

/-! An application that pops the messages of one sender from the table itself, as `sendServ.c`
does. `add_msg` pushes in front and `Q_pop` takes from the front, so a second message that comes
in before a read overtakes the first one. -/
namespace DistributedPis
open Library

/-- The table, and the messages of one sender in the order in which they were completed and
returned. -/
structure TableReader where
  t : FileTable
  completed : List ℕ
  returned : List ℕ

inductive TableEvent where
  | packet (p : Packet)
  | read

namespace TableReader

def start : TableReader := ⟨.init, [], []⟩

/-- A read is only made while the queue is not empty. -/
def step (i : Fin 17) (s : TableReader) : TableEvent → Option TableReader
  | .packet p => some
      { t := s.t.recieveMsgHandler p
        completed := s.completed ++ if p.fd = i ∧ s.t.completes p then [(s.t.fds i).curMsg] else []
        returned := s.returned }
  | .read =>
    if (s.t.fds i).msgQ.empty then none
    else ((s.t.fds i).msgQ.pop s.t.next).1.map fun id => { s with
      t.fds := Function.update s.t.fds i
        {s.t.fds i with msgQ := ((s.t.fds i).msgQ.pop s.t.next).2}
      returned := s.returned ++ [id] }

/-- At most one message waits when the application reads. -/
def Single (i : Fin 17) (s : TableReader) : TableEvent → Prop
  | .packet _ => True
  | .read => (s.t.fds i).msgQ.cnt ≤ 1

instance (i : Fin 17) (s : TableReader) : ∀ e, Decidable (s.Single i e)
  | .packet _ => isTrue trivial
  | .read => inferInstanceAs (Decidable (_ ≤ 1))

/-- What the application relies on: no message comes twice, they come in the order of their
completion, and once the queue is empty all of them have come. -/
structure InOrder (i : Fin 17) (s : TableReader) : Prop where
  nodup : s.returned.Nodup
  isPrefix : s.returned <+: s.completed
  all : (s.t.fds i).msgQ.empty = true → s.returned = s.completed

end TableReader

section Frames
variable {t : FileTable} {owner : ℕ → Fin 17} {i j : Fin 17} {id : ℕ} {ids : List ℕ} {r : Receiver}

/-- The table after a pop from its entry `i`. -/
def FileTable.popMsg (t : FileTable) (i : Fin 17) : FileTable :=
  {t with fds := Function.update t.fds i {t.fds i with msgQ := ((t.fds i).msgQ.pop t.next).2}}

theorem Entry.popMsg (h : Entry t owner i (id::ids) r) :
    Entry (t.popMsg i) owner i ids {r with queue := r.queue.tail} where
  queue := by simpa [FileTable.popMsg] using h.queue.pop.2
  cur := by simp [FileTable.popMsg, h.cur]
  msgs := by rw [← h.msgs]; rfl
  status := by simp [FileTable.popMsg, h.status]
  fresh k hk := by
    simp only [FileTable.popMsg, Function.update_self] at hk ⊢
    rcases List.mem_cons.mp hk with rfl | hk
    · exact h.fresh _ (List.mem_cons_self ..)
    · exact h.fresh k (List.mem_cons_of_mem _ (List.mem_cons_of_mem _ hk))
  apart := by
    simp only [FileTable.popMsg, Function.update_self]
    exact fun hc => h.apart (List.mem_cons_of_mem _ hc)

theorem Entry.popMsg_other (h : Entry t owner j ids r) (hij : j ≠ i) :
    Entry (t.popMsg i) owner j ids r := by
  constructor <;> simp only [FileTable.popMsg, Function.update_of_ne hij]
  · exact h.queue
  · exact h.cur
  · exact h.msgs
  · exact h.status
  · exact h.fresh
  · exact h.apart

/-- A packet leaves the current message of an entry alone, or completes it and starts the entry
on the next object. -/
theorem handler_curMsg (t : FileTable) (p : Packet) (i : Fin 17) :
    (((t.recieveMsgHandler p).fds i).curMsg =
      if p.fd = i ∧ t.completes p then t.nmsgs else (t.fds i).curMsg) ∧
    t.nmsgs ≤ (t.recieveMsgHandler p).nmsgs := by
  unfold FileTable.recieveMsgHandler FileTable.completes
  dsimp only
  by_cases hl : p.isLocal
  · rw [if_pos hl]
    by_cases hi : i = 16
    · subst hi
      simp [hl, FileTable.setStatus]
    · simp [hl, FileTable.setStatus, Function.update_of_ne hi]
  rw [if_neg hl]
  by_cases hc : p.isCmd
  · rw [if_pos hc]
    split
    · by_cases hi : i = p.fd
      · subst hi
        simp [hc, FileTable.setStatus]
      · simp [hc, FileTable.setStatus, Function.update_of_ne hi]
    · simp [hc, FileTable.setMsg]
  rw [if_neg hc]
  by_cases ho : (t.msgs (t.fds p.fd).curMsg).hasCmd
  · rw [if_neg (not_not_intro ho)]
    split
    · rename_i hd
      by_cases hi : i = p.fd
      · subst hi
        simp [hl, hc, ho, hd, FileTable.setMsg, FileTable.addMsg]
      · simp [Ne.symm hi, FileTable.setMsg, FileTable.addMsg, Function.update_of_ne hi]
    · rename_i hd
      simp [hd, FileTable.setMsg]
  · rw [if_pos ho]
    simp [ho, FileTable.setMsg]

end Frames

namespace TableReader
variable {i : Fin 17} {s s' : TableReader} {e : TableEvent} {q : List ℕ}

/-- The messages `q` wait, the newest one first; all that were completed are different objects,
and none is the one that is being reassembled. -/
structure Waiting (i : Fin 17) (s : TableReader) (q : List ℕ) : Prop where
  table : ∃ owner ids rs, Represents s.t owner ids rs ∧ ids i = q
  count : s.returned.length + q.length = s.completed.length
  nodup : s.completed.Nodup
  old : ∀ id ∈ s.completed, id < s.t.nmsgs ∧ id ≠ (s.t.fds i).curMsg

lemma start_waiting (i : Fin 17) : Waiting i start [] :=
  ⟨⟨_,_,_,init_represents,rfl⟩, rfl, List.nodup_nil, by simp [start]⟩

lemma Waiting.queue (h : Waiting i s q) : IsQueue s.t.next (s.t.fds i).msgQ q := by
  obtain ⟨_,_,_,hrep,rfl⟩ := h.table
  exact (hrep i).queue

lemma step_packet (h : Waiting i s q) (p : Packet) (hs : step i s (.packet p) = some s') :
    ∃ new, Waiting i s' (new ++ q) ∧ s'.completed = s.completed ++ new.reverse ∧
      s'.returned = s.returned := by
  cases hs
  obtain ⟨owner,ids,rs,hrep,hq⟩ := h.table
  obtain ⟨owner',ids',hrep',hids'⟩ := handler_refines p hrep
  obtain ⟨hcur,hle⟩ := handler_curMsg s.t p i
  have hlt := ((hrep i).fresh _ (List.mem_cons_self ..)).1
  by_cases hdone : p.fd = i ∧ s.t.completes p = true
  · obtain ⟨rfl,hc⟩ := hdone
    have hnew : (s.t.fds p.fd).curMsg ∉ s.completed := fun hm => (h.old _ hm).2 rfl
    have hown := ((hrep' p.fd).fresh _ (List.mem_cons_self ..)).1
    rw [hcur, if_pos ⟨rfl,hc⟩] at hown
    refine ⟨[(s.t.fds p.fd).curMsg], ⟨⟨_,_,_,hrep',?_⟩, ?_, ?_, ?_⟩, by simp [hc], rfl⟩
    · rw [Function.update_self, hids', if_pos hc, hq]
      rfl
    · have := h.count
      simp [hc]
      omega
    · simpa [hc, List.nodup_append] using ⟨h.nodup, fun a ha he => hnew (he ▸ ha)⟩
    · intro id hid
      simp only [hc, and_self, if_true, List.mem_append, List.mem_singleton] at hid ⊢
      rw [hcur, if_pos ⟨rfl,hc⟩]
      rcases hid with hid | rfl
      · exact ⟨Nat.lt_of_lt_of_le (h.old id hid).1 hle, (h.old id hid).1.ne⟩
      · exact ⟨Nat.lt_of_lt_of_le hlt hle, hlt.ne⟩
  · refine ⟨[], ⟨⟨_,_,_,hrep',?_⟩, ?_, ?_, ?_⟩, by simp [hdone], rfl⟩
    · by_cases hi : p.fd = i
      · subst hi
        rw [Function.update_self, hids', if_neg fun hc => hdone ⟨rfl,hc⟩, hq]
        rfl
      · rw [Function.update_of_ne (Ne.symm hi), hq]
        rfl
    · simpa [hdone] using h.count
    · simpa [hdone] using h.nodup
    · intro id hid
      simp only [hdone, if_false, List.append_nil] at hid ⊢
      rw [hcur, if_neg hdone]
      exact ⟨Nat.lt_of_lt_of_le (h.old id hid).1 hle, (h.old id hid).2⟩

/-- A read returns the newest message. -/
lemma step_read (h : Waiting i s q) (hs : step i s .read = some s') :
    ∃ id rest, q = id::rest ∧ Waiting i s' rest ∧ s'.completed = s.completed ∧
      s'.returned = s.returned ++ [id] := by
  have hqueue := h.queue
  cases q with
  | nil => simp [step, hqueue.empty_iff.mpr rfl] at hs
  | cons id rest =>
    have hne : (s.t.fds i).msgQ.empty = false := by
      by_contra hc
      exact absurd (hqueue.empty_iff.mp (Bool.eq_true_of_not_eq_false hc)) (by simp)
    obtain ⟨hpop,_⟩ := hqueue.pop
    simp only [step, hne, Bool.false_eq_true, if_false, hpop, Option.map_some,
      Option.some.injEq] at hs
    subst hs
    obtain ⟨owner,ids,rs,hrep,hq⟩ := h.table
    have hself := hrep i
    rw [hq] at hself
    have hrep' : Represents (s.t.popMsg i) owner (Function.update ids i rest)
        (Function.update rs i {rs i with queue := (rs i).queue.tail}) := by
      intro j
      by_cases hj : j = i
      · subst hj
        simpa using hself.popMsg
      · simpa [Function.update_of_ne hj] using (hrep j).popMsg_other hj
    refine ⟨id, rest, rfl, ⟨⟨_,_,_,hrep',Function.update_self ..⟩, ?_, h.nodup, ?_⟩, rfl, rfl⟩
    · have := h.count
      simp at this ⊢
      omega
    · simpa using h.old

/-- The messages came in order so far. -/
def Ordered (s : TableReader) (q : List ℕ) : Prop := s.completed = s.returned ++ q.reverse

lemma Waiting.inOrder (h : Waiting i s q) (ho : Ordered s q) : InOrder i s where
  nodup := by
    have hnd := h.nodup
    rw [ho] at hnd
    exact (List.nodup_append.mp hnd).1
  isPrefix := ⟨_,ho.symm⟩
  all hempty := by
    obtain rfl := h.queue.empty_iff.mp hempty
    simpa using ho.symm

/-- One step keeps the order, or it is a read with several messages waiting and breaks it. -/
theorem step_ordered (h : Waiting i s q) (ho : Ordered s q) (hs : step i s e = some s') :
    ∃ q', Waiting i s' q' ∧ (Single i s e → Ordered s' q') ∧
      (¬Single i s e → ¬s'.returned <+: s'.completed) := by
  cases e with
  | packet p =>
    obtain ⟨new,hw,hc,hr⟩ := step_packet h p hs
    refine ⟨_, hw, fun _ => ?_, fun hn => absurd trivial hn⟩
    rw [Ordered, hc, hr, ho, List.reverse_append, List.append_assoc]
  | read =>
    obtain ⟨id,rest,rfl,hw,hc,hr⟩ := step_read h hs
    refine ⟨rest, hw, fun hone => ?_, fun hmany hpre => ?_⟩
    · rw [Single, h.queue.cnt] at hone
      obtain rfl : rest = [] := List.length_eq_zero_iff.mp (by simpa using hone)
      rw [Ordered, hc, hr, List.reverse_nil, List.append_nil]
      exact ho
    · -- the oldest message comes before the newest one
      rw [hc, hr, ho, List.prefix_append_right_inj] at hpre
      have hlast : rest ≠ [] := by
        rintro rfl
        exact hmany (by simp [Single, h.queue.cnt])
      obtain ⟨rest',last,rfl⟩ := (List.eq_nil_or_concat' rest).resolve_left hlast
      have hnd := h.queue.nodup
      have hid : id = last := by simpa using hpre
      simp [hid] at hnd

/-- An order that is broken stays broken. -/
lemma step_broken (h : Waiting i s q) (hs : step i s e = some s')
    (hb : ¬s.returned <+: s.completed) :
    ∃ q', Waiting i s' q' ∧ ¬s'.returned <+: s'.completed := by
  have hle : s.returned.length ≤ s.completed.length := by
    have := h.count
    omega
  cases e with
  | packet p =>
    obtain ⟨new,hw,hc,hr⟩ := step_packet h p hs
    refine ⟨_, hw, fun hpre => hb ?_⟩
    rw [hc, hr] at hpre
    exact List.prefix_of_prefix_length_le hpre (List.prefix_append ..) hle
  | read =>
    obtain ⟨id,rest,rfl,hw,hc,hr⟩ := step_read h hs
    refine ⟨_, hw, fun hpre => hb ?_⟩
    rw [hc, hr] at hpre
    exact (List.prefix_append ..).trans hpre

theorem run_inOrder {es : List TableEvent} {u : TableReader} (h : Waiting i s q)
    (ho : Ordered s q) (hrun : es.foldlM (step i) s = some u) :
    InOrder i u ↔ Meets (step i) (Single i) s es := by
  induction es generalizing s q with
  | nil => cases hrun; exact iff_of_true (h.inOrder ho) trivial
  | cons e es ih =>
    rw [List.foldlM_cons] at hrun
    obtain ⟨s',hs,hrun⟩ := Option.bind_eq_some_iff.mp hrun
    obtain ⟨q',hw,hkeep,hbreak⟩ := step_ordered h ho hs
    by_cases hone : Single i s e
    · rw [ih hw (hkeep hone) hrun]
      refine ⟨fun hm => ⟨hone, fun t ht => ?_⟩, fun hm => hm.2 s' hs⟩
      obtain rfl := Option.some.inj (hs.symm.trans ht)
      exact hm
    · refine iff_of_false (fun hin => ?_) (fun hm => hone hm.1)
      obtain ⟨_,_,hb⟩ := foldlM_invariant
        (P := fun s => ∃ q, Waiting i s q ∧ ¬s.returned <+: s.completed)
        (fun _ _ _ ⟨_,hw,hb⟩ ht => step_broken hw ht hb) ⟨q', hw, hbreak hone⟩ hrun
      exact hb hin.isPrefix

end TableReader

/-- In a run of completions and reads, the messages of a sender come in order exactly if no read
finds more than one message waiting. -/
theorem reads_inOrder_iff {i : Fin 17} {es : List TableEvent} {s : TableReader}
    (h : es.foldlM (TableReader.step i) .start = some s) :
    s.InOrder i ↔ Meets (TableReader.step i) (TableReader.Single i) .start es :=
  TableReader.run_inOrder (TableReader.start_waiting i) rfl h

/-- The packets of one byte from node 1. -/
def oneMessage : List TableEvent := (cmdPckts (fun _ => 0) espSendData 2 1 [7]).map .packet

/-- Each message is read before the next one comes in. -/
def eachAtOnce : List TableEvent := oneMessage ++ [.read] ++ oneMessage ++ [.read]

theorem reads_inOrder_iff_each :
    ∃ s, eachAtOnce.foldlM (TableReader.step 1) .start = some s ∧ s.InOrder 1 := by
  have hone : Meets (TableReader.step 1) (TableReader.Single 1) .start eachAtOnce := by
    decide +kernel
  exact ⟨_, rfl, (reads_inOrder_iff rfl).mpr hone⟩

/-- Two messages wait, and the second one is returned first. -/
def bothAtOnce : List TableEvent := oneMessage ++ oneMessage ++ [.read]

theorem second_returned_first :
    ∃ s, bothAtOnce.foldlM (TableReader.step 1) .start = some s ∧
      s.completed = [1,17] ∧ s.returned = [17] ∧ ¬s.InOrder 1 :=
  ⟨_, rfl, rfl, rfl, fun h => absurd h.isPrefix (by decide)⟩

end DistributedPis
