import DistributedPis.Pi.Ownership

/-! How the bytes of one entry stand for its receiver, and what keeps that true. -/
namespace DistributedPis
open Library

namespace Board

def toPtr (v : ℕ) : Option ℕ := if v = 0 then none else some v

/-- The `next` field of a `msg_t`. -/
def next (s : Board) (a : ℕ) : Option ℕ := toPtr (s.get32 (a+16))

/-- The queue header inside an `fd`. -/
def queue (s : Board) (i : ℕ) : Queue ℕ :=
  ⟨toPtr (s.get32 (s.fdAddr i + 4)), toPtr (s.get32 (s.fdAddr i + 8)), s.get32 (s.fdAddr i + 12)⟩

end Board

/-- The `msg_t` at `a` belongs to entry `i` and holds `m`. -/
structure MsgMem (s : Board) (o : Owner) (i : Fin 17) (a : ℕ) (m : MsgT) : Prop where
  pos : 0 < a
  lt : a < 2^32
  record : Owns o (i,.msg a) a 20
  data : s.get32 (a+12) ≠ 0 → Owns o (i,.data a) (s.get32 (a+12)) (30*m.totPckts % 2^32)
  view : s.msgAt a = m

/-- The allocated data block of an open message, from which the handler computes addresses. -/
structure HasBlock (s : Board) (a : ℕ) (m : MsgT) : Prop where
  pos : s.get32 (a+12) ≠ 0
  eq : s.dataBlock a = (s.get32 (a+12), 30*m.totPckts % 2^32)
  le : s.get32 (a+12) + 30*m.totPckts % 2^32 ≤ 2^32

/-- Entry `i` of the table stands for the receiver `r`: its current `msg_t` is at `a` and its
queue consists of those at `ids`. -/
structure EntryMem (s : Board) (o : Owner) (i : Fin 17) (a : ℕ) (ids : List ℕ) (r : Receiver) :
    Prop where
  fd : Owns o (i,.fd) (s.fdAddr i) 20
  cur : s.get32 (s.fdAddr i) = a
  curMsg : MsgMem s o i a r.cur
  queue : IsQueue s.next (s.queue i) ids
  msgs : List.Forall₂ (MsgMem s o i) ids r.queue
  apart : a ∉ ids
  status : s.mem (s.fdAddr i + 16) = r.status
  room : ids.length ≤ s.brk
  dataBlock : r.cur.hasCmd = true → HasBlock s a r.cur

section Frames
variable {o o' : Owner} {P : Fin 17 × Part → Prop} {s s' : Board} {i : Fin 17} {a : ℕ}
  {ids : List ℕ} {r : Receiver} {m : MsgT}

lemma msgAt_congr (hrec : ∀ k < 16, s'.mem (a+k) = s.mem (a+k))
    (hdata : s.get32 (a+12) ≠ 0 → ∀ k < 30*s.get32 (a+4) % 2^32,
      s'.mem (s.get32 (a+12) + k) = s.mem (s.get32 (a+12) + k)) : s'.msgAt a = s.msgAt a := by
  have h0 := hrec 0 (by decide)
  have h32 : ∀ d ≤ 12, s'.get32 (a+d) = s.get32 (a+d) := fun d hd =>
    read32_congr (fun k hk => by rw [Nat.add_assoc]; exact hrec (d+k) (by omega))
  simp only [Nat.add_zero] at h0
  rw [Board.msgAt, Board.msgAt, h0, h32 4 (by decide), h32 8 (by decide), h32 12 (by decide)]
  by_cases hp : s.get32 (a+12) = 0
  · rw [if_pos hp, if_pos hp]
  · rw [if_neg hp, if_neg hp, block_congr (hdata hp)]

lemma MsgMem.totPckts (h : MsgMem s o i a m) : s.get32 (a+4) = m.totPckts := by rw [← h.view]; rfl

/-- A message stays what it is while neither its `msg_t` nor its data is touched. -/
lemma MsgMem.frame (h : MsgMem s o i a m) (ht : Touches o P s s') (ho : Extends o o')
    (hmsg : ¬ P (i,.msg a)) (hdata : ¬ P (i,.data a)) : MsgMem s' o' i a m := by
  have hptr : s'.get32 (a+12) = s.get32 (a+12) := ht.get32 (h.record.sub (by decide)) hmsg
  refine ⟨h.pos, h.lt, h.record.extend ho, ?_, ?_⟩
  · rw [hptr]
    exact fun hp => (h.data hp).extend ho
  · rw [← h.view]
    refine msgAt_congr (fun k hk => ht.mem _ _ (h.record k (by omega)) hmsg) (fun hp k hk => ?_)
    rw [h.totPckts] at hk
    exact ht.mem _ _ (h.data hp k hk) hdata

lemma HasBlock.frame (h : HasBlock s a m) (hrec : Owns o (i,.msg a) a 20) (ht : Touches o P s s')
    (hmsg : ¬ P (i,.msg a)) : HasBlock s' a m := by
  have hptr : s'.get32 (a+12) = s.get32 (a+12) := ht.get32 (hrec.sub (by decide)) hmsg
  have hown : o a = some (i,.msg a) := hrec 0 (by decide)
  exact ⟨hptr ▸ h.pos, by rw [ht.dataBlock a i hown hmsg, hptr, h.eq], hptr ▸ h.le⟩

lemma next_frame (h : MsgMem s o i a m) (ht : Touches o P s s') (hmsg : ¬ P (i,.msg a)) :
    s'.next a = s.next a := by
  rw [Board.next, Board.next, ht.get32 (h.record.sub (by decide)) hmsg]

lemma mem_forall₂_left {α β : Type*} {R : α → β → Prop} {xs : List α} {ys : List β}
    (h : List.Forall₂ R xs ys) {x : α} (hx : x ∈ xs) : ∃ y, R x y := by
  induction h with
  | nil => cases hx
  | cons hr _ ih =>
    rcases List.mem_cons.mp hx with rfl | hx
    · exact ⟨_,hr⟩
    · exact ih hx

lemma EntryMem.msgs_frame (h : EntryMem s o i a ids r) (ht : Touches o P s s')
    (ho : Extends o o') (hids : ∀ b ∈ ids, ¬ P (i,.msg b) ∧ ¬ P (i,.data b)) :
    List.Forall₂ (MsgMem s' o' i) ids r.queue := by
  have hmsgs := h.msgs
  have hkeep : ∀ b m, b ∈ ids → MsgMem s o i b m → MsgMem s' o' i b m :=
    fun b m hb hm => hm.frame ht ho (hids b hb).1 (hids b hb).2
  clear h hids
  generalize r.queue = ms at hmsgs ⊢
  induction hmsgs with
  | nil => exact .nil
  | cons hm _ ih =>
    exact .cons (hkeep _ _ (List.mem_cons_self ..) hm)
      (ih (fun b m hb => hkeep b m (List.mem_cons_of_mem _ hb)))

/-- The queue of an entry stays what it is while its `fd` and its queued messages are not
touched. -/
lemma EntryMem.queue_frame (h : EntryMem s o i a ids r) (ht : Touches o P s s')
    (hfd : ¬ P (i,.fd)) (hids : ∀ b ∈ ids, ¬ P (i,.msg b)) :
    IsQueue s'.next (s'.queue i) ids := by
  have hq : s'.queue i = s.queue i := by
    rw [Board.queue, Board.queue, ht.fdAddr, ht.get32 (h.fd.sub (by decide)) hfd,
      ht.get32 (h.fd.sub (by decide)) hfd, ht.get32 (h.fd.sub (by decide)) hfd]
  refine hq ▸ h.queue.congr (fun b hb => ?_)
  obtain ⟨m,hm⟩ := mem_forall₂_left h.msgs hb
  exact next_frame hm ht (hids b hb)

lemma EntryMem.fd_frame (h : EntryMem s o i a ids r) (ht : Touches o P s s') (hfd : ¬ P (i,.fd)) :
    s'.get32 (s'.fdAddr i) = a ∧ s'.mem (s'.fdAddr i + 16) = r.status := by
  have hptr : Owns o (i,.fd) (s.fdAddr i) 4 := h.fd.sub (d := 0) (by decide)
  rw [ht.fdAddr, ht.get32 hptr hfd, ht.mem _ _ (h.fd 16 (by decide)) hfd]
  exact ⟨h.cur,h.status⟩

/-- Nothing of the entry is touched. -/
theorem EntryMem.frame (h : EntryMem s o i a ids r) (ht : Touches o P s s') (ho : Extends o o')
    (hP : ∀ t, ¬ P (i,t)) : EntryMem s' o' i a ids r := by
  obtain ⟨hcur,hstatus⟩ := h.fd_frame ht (hP _)
  have hqueue := h.queue_frame ht (hP _) (fun b _ => hP _)
  have hmsgs := h.msgs_frame ht ho (fun b _ => ⟨hP _,hP _⟩)
  exact ⟨ht.fdAddr i ▸ h.fd.extend ho, hcur, h.curMsg.frame ht ho (hP _) (hP _), hqueue, hmsgs,
    h.apart, hstatus, h.room.trans ht.brk,
    fun hc => (h.dataBlock hc).frame h.curMsg.record ht (hP _)⟩

/-- Only the current message is touched, and now holds `m`. -/
theorem EntryMem.setCur (h : EntryMem s o i a ids r)
    (ht : Touches o (fun q => q = (i,.msg a) ∨ q = (i,.data a)) s s') (ho : Extends o o')
    (hm : MsgMem s' o' i a m) (hb : m.hasCmd = true → HasBlock s' a m) :
    EntryMem s' o' i a ids {r with cur := m} := by
  have hfd : ¬ ((i,Part.fd) = (i,.msg a) ∨ (i,Part.fd) = (i,.data a)) := by simp
  obtain ⟨hcur,hstatus⟩ := h.fd_frame ht hfd
  have hids : ∀ b ∈ ids, b ≠ a := fun b hb => ne_of_mem_of_not_mem hb h.apart
  have hqueue := h.queue_frame ht hfd (fun b hb => by simp [hids b hb])
  have hmsgs := h.msgs_frame ht ho (fun b hb => by simp [hids b hb])
  exact ⟨ht.fdAddr i ▸ h.fd.extend ho, hcur, hm, hqueue, hmsgs, h.apart, hstatus,
    h.room.trans ht.brk, hb⟩

end Frames

section View
variable {o : Owner} {s : Board} {i : Fin 17} {a : ℕ} {ids : List ℕ} {r : Receiver}

lemma toPtr_eq_some {v b : ℕ} (h : Board.toPtr v = some b) : v = b := by
  unfold Board.toPtr at h
  split at h
  · cases h
  · exact Option.some.inj h

lemma msgsFrom_eq {ms : List MsgT} {v : ℕ} (h : List.Forall₂ (MsgMem s o i) ids ms)
    (hp : Path s.next (Board.toPtr v) ids none) : s.msgsFrom ids.length v = ms := by
  induction h generalizing v with
  | nil => rfl
  | cons hm _ ih =>
    obtain ⟨hv,hp⟩ := hp
    obtain rfl := toPtr_eq_some hv
    rw [List.length_cons, Board.msgsFrom, hm.view, ih hp]

/-- The receiver is what the memory shows of the entry. -/
theorem EntryMem.view_eq (h : EntryMem s o i a ids r) : s.view i = r := by
  have hcnt : s.get32 (s.fdAddr i + 12) = ids.length := h.queue.cnt
  rw [Board.view, h.cur, h.curMsg.view, hcnt, msgsFrom_eq h.msgs h.queue.path, h.status]

end View
end DistributedPis
