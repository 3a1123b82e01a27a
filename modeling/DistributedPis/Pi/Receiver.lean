import DistributedPis.Pi.FileTable

/-! The purpose of one table entry, without pointers: a receiver reassembles the packets of its
sender and stacks up the complete messages. The table is a family of independent receivers. -/
namespace DistributedPis
open Library

structure Receiver where
  cur : MsgT
  /-- Complete messages, the last one first. -/
  queue : List MsgT
  status : UInt8

namespace Receiver

def init : Receiver := ⟨.zero, [], none4⟩

/-- Take one packet that is meant for this entry. -/
def step (r : Receiver) (p : Packet) : Receiver :=
  if p.isLocal then {r with status := p.cmnd}
  else if p.isCmd then
    if p.isAck then {r with status := p.cmnd} else {r with cur := r.cur.openCmd p}
  else if ¬ r.cur.hasCmd then {r with cur := r.cur.reject}
  else if (r.cur.store p).curPckts = (r.cur.store p).totPckts then
    {r with cur := .zero, queue := r.cur.store p :: r.queue}
  else {r with cur := r.cur.store p}

def run (r : Receiver) (ps : List Packet) : Receiver := ps.foldl step r

@[simp] theorem run_nil (r : Receiver) : r.run [] = r := rfl
@[simp] theorem run_cons (r : Receiver) (p : Packet) (ps : List Packet) :
    r.run (p::ps) = (r.step p).run ps := rfl
@[simp] theorem run_append (r : Receiver) (ps qs : List Packet) :
    r.run (ps ++ qs) = (r.run ps).run qs := List.foldl_append

end Receiver

/-- The objects `id::ids` belong to entry `i`: the current message and the queued ones. -/
structure Entry (t : FileTable) (owner : ℕ → Fin 17) (i : Fin 17) (ids : List ℕ) (r : Receiver) :
    Prop where
  queue : IsQueue t.next (t.fds i).msgQ ids
  cur : t.msgs (t.fds i).curMsg = r.cur
  msgs : ids.map t.msgs = r.queue
  status : (t.fds i).status = r.status
  fresh : ∀ id ∈ (t.fds i).curMsg::ids, id < t.nmsgs ∧ owner id = i
  apart : (t.fds i).curMsg ∉ ids

/-- Every entry stands for its receiver, with the objects `ids i` in its queue. -/
def Represents (t : FileTable) (owner : ℕ → Fin 17) (ids : Fin 17 → List ℕ)
    (rs : Fin 17 → Receiver) : Prop := ∀ i, Entry t owner i (ids i) (rs i)

theorem init_represents :
    Represents .init (fun id => if h : id < 17 then ⟨id,h⟩ else 0) (fun _ => [])
      (fun _ => .init) := by
  intro i
  refine ⟨.zero, rfl, rfl, rfl, ?_, by simp⟩
  intro id hid
  obtain rfl := List.mem_singleton.mp hid
  exact ⟨i.isLt, by simp [FileTable.init]⟩

section Frames
variable {t : FileTable} {owner : ℕ → Fin 17} {i j : Fin 17} {ids : List ℕ} {r : Receiver}

theorem Entry.setStatus (h : Entry t owner i ids r) (status : UInt8) :
    Entry (t.setStatus i status) owner i ids {r with status := status} := by
  constructor <;> simp [FileTable.setStatus, h.queue, h.cur, h.msgs, h.apart]
  exact ⟨h.fresh _ (List.mem_cons_self ..), fun a ha => h.fresh a (List.mem_cons_of_mem _ ha)⟩

theorem Entry.setStatus_other (h : Entry t owner j ids r) (hij : j ≠ i) (status : UInt8) :
    Entry (t.setStatus i status) owner j ids r := by
  constructor <;> simp [FileTable.setStatus, hij, h.queue, h.cur, h.msgs, h.status, h.apart]
  exact ⟨h.fresh _ (List.mem_cons_self ..), fun a ha => h.fresh a (List.mem_cons_of_mem _ ha)⟩

theorem Entry.setMsg (h : Entry t owner i ids r) (m : MsgT) :
    Entry (t.setMsg (t.fds i).curMsg m) owner i ids {r with cur := m} := by
  refine ⟨h.queue, Function.update_self .., ?_, h.status, h.fresh, h.apart⟩
  rw [← h.msgs]
  refine List.map_congr_left (fun id hid => ?_)
  exact Function.update_of_ne (ne_of_mem_of_not_mem hid h.apart) _ _

/-- Writing an object of another owner changes nothing here. -/
theorem Entry.setMsg_other (h : Entry t owner j ids r) {id : ℕ} (hid : owner id ≠ j) (m : MsgT) :
    Entry (t.setMsg id m) owner j ids r := by
  have hne : ∀ k ∈ (t.fds j).curMsg::ids, k ≠ id :=
    fun k hk he => hid (he ▸ (h.fresh k hk).2)
  refine ⟨h.queue, ?_, ?_, h.status, h.fresh, h.apart⟩
  · rw [← h.cur]
    exact Function.update_of_ne (hne _ (List.mem_cons_self ..)) _ _
  · rw [← h.msgs]
    exact List.map_congr_left
      (fun k hk => Function.update_of_ne (hne k (List.mem_cons_of_mem _ hk)) _ _)

theorem Entry.addMsg (h : Entry t owner i ids r) :
    Entry (t.addMsg i) (Function.update owner t.nmsgs i) i ((t.fds i).curMsg::ids)
      {r with cur := .zero, queue := r.cur::r.queue} := by
  have hlt : ∀ k ∈ (t.fds i).curMsg::ids, k ≠ t.nmsgs := fun k hk => (h.fresh k hk).1.ne
  constructor
  · simpa [FileTable.addMsg] using h.queue.push h.apart
  · simp [FileTable.addMsg]
  · rw [← h.cur, ← h.msgs, ← List.map_cons]
    refine List.map_congr_left (fun k hk => Function.update_of_ne (hlt k hk) _ _)
  · simp [FileTable.addMsg, h.status]
  · intro id hid
    simp only [FileTable.addMsg, Function.update_self] at hid ⊢
    rcases List.mem_cons.mp hid with rfl | hid
    · exact ⟨Nat.lt_succ_self _, Function.update_self ..⟩
    · obtain ⟨hl,ho⟩ := h.fresh id hid
      exact ⟨Nat.lt_succ_of_lt hl, by rwa [Function.update_of_ne hl.ne]⟩
  · simp only [FileTable.addMsg, Function.update_self]
    exact fun hc => hlt _ hc rfl

theorem Entry.addMsg_other (h : Entry t owner j ids r) (hij : j ≠ i)
    (hi : owner (t.fds i).curMsg = i) :
    Entry (t.addMsg i) (Function.update owner t.nmsgs i) j ids r := by
  have hlt : ∀ k ∈ (t.fds j).curMsg::ids, k ≠ t.nmsgs := fun k hk => (h.fresh k hk).1.ne
  have hne : ∀ k ∈ (t.fds j).curMsg::ids, k ≠ (t.fds i).curMsg :=
    fun k hk he => hij ((h.fresh k hk).2.symm.trans (he ▸ hi))
  constructor
  · simp only [FileTable.addMsg, Function.update_of_ne hij]
    exact h.queue.congr (fun k hk => push_next_of_ne _ _ _ (hne k (List.mem_cons_of_mem _ hk)))
  · simp only [FileTable.addMsg, Function.update_of_ne hij]
    rw [Function.update_of_ne (hlt _ (List.mem_cons_self ..)), h.cur]
  · rw [← h.msgs]
    exact List.map_congr_left
      (fun k hk => Function.update_of_ne (hlt k (List.mem_cons_of_mem _ hk)) _ _)
  · simp [FileTable.addMsg, Function.update_of_ne hij, h.status]
  · intro id hid
    simp only [FileTable.addMsg, Function.update_of_ne hij] at hid ⊢
    obtain ⟨hl,ho⟩ := h.fresh id hid
    exact ⟨Nat.lt_succ_of_lt hl, by rwa [Function.update_of_ne hl.ne]⟩
  · simpa only [FileTable.addMsg, Function.update_of_ne hij] using h.apart

end Frames

/-- What one call does to the entry of its packet. -/
theorem handler_own {t : FileTable} {owner : ℕ → Fin 17} {p : Packet} {ids : List ℕ} {r : Receiver}
    (h : Entry t owner p.fd ids r) : ∃ owner' ids',
    Entry (t.recieveMsgHandler p) owner' p.fd ids' (r.step p) ∧
      (∀ j ids r, j ≠ p.fd → Entry t owner j ids r →
        Entry (t.recieveMsgHandler p) owner' j ids r) ∧
      ids' = if t.completes p then (t.fds p.fd).curMsg::ids else ids := by
  have hown : owner (t.fds p.fd).curMsg = p.fd := (h.fresh _ (List.mem_cons_self ..)).2
  have hother : ∀ j, j ≠ p.fd → owner (t.fds p.fd).curMsg ≠ j := fun j hj hc => hj (hc ▸ hown)
  unfold FileTable.recieveMsgHandler Receiver.step FileTable.completes
  dsimp only
  rw [h.cur]
  by_cases hl : p.isLocal
  · have hfd : p.fd = 16 := by simp [Packet.fd, hl]
    rw [if_pos hl, if_pos hl, ← hfd]
    exact ⟨owner, ids, h.setStatus _, fun j _ _ hj he => he.setStatus_other hj _, by simp [hl]⟩
  rw [if_neg hl, if_neg hl]
  by_cases hc : p.isCmd
  · rw [if_pos hc, if_pos hc]
    by_cases ha : p.isAck
    · rw [if_pos ha, if_pos ha]
      exact ⟨owner, ids, h.setStatus _, fun j _ _ hj he => he.setStatus_other hj _, by simp [hc]⟩
    · rw [if_neg ha, if_neg ha]
      exact ⟨owner, ids, h.setMsg _, fun j _ _ hj he => he.setMsg_other (hother j hj) _,
        by simp [hc]⟩
  rw [if_neg hc, if_neg hc]
  by_cases ho : r.cur.hasCmd
  · rw [if_neg (not_not_intro ho), if_neg (not_not_intro ho)]
    have hset := h.setMsg (r.cur.store p)
    by_cases hd : (r.cur.store p).curPckts = (r.cur.store p).totPckts
    · rw [if_pos hd, if_pos hd]
      exact ⟨_, _, hset.addMsg,
        fun j _ _ hj he => (he.setMsg_other (hother j hj) _).addMsg_other hj hown,
        by simp [hl, hc, ho, hd]; rfl⟩
    · rw [if_neg hd, if_neg hd]
      exact ⟨owner, ids, hset, fun j _ _ hj he => he.setMsg_other (hother j hj) _, by simp [hd]⟩
  · rw [if_pos ho, if_pos ho]
    exact ⟨owner, ids, h.setMsg _, fun j _ _ hj he => he.setMsg_other (hother j hj) _,
      by simp [ho]⟩

/-- The table refines the family of receivers: a packet is one step of its own receiver. -/
theorem handler_refines {t : FileTable} {owner : ℕ → Fin 17} {ids : Fin 17 → List ℕ}
    {rs : Fin 17 → Receiver} (p : Packet) (h : Represents t owner ids rs) : ∃ owner' ids',
    Represents (t.recieveMsgHandler p) owner' (Function.update ids p.fd ids')
        (Function.update rs p.fd ((rs p.fd).step p)) ∧
      ids' = if t.completes p then (t.fds p.fd).curMsg::ids p.fd else ids p.fd := by
  obtain ⟨owner',ids',hself,hothers,hids⟩ := handler_own (h p.fd)
  refine ⟨owner', ids', fun j => ?_, hids⟩
  by_cases hj : j = p.fd
  · subst hj; simpa using hself
  · simpa [Function.update_of_ne hj] using hothers j _ _ hj (h j)

/-- Over a run, every receiver has taken the packets of its own sender and no others. -/
theorem receive_refines {t : FileTable} {owner : ℕ → Fin 17} {ids : Fin 17 → List ℕ}
    {rs : Fin 17 → Receiver} (ps : List Packet) (h : Represents t owner ids rs) :
    ∃ owner' ids', Represents (t.receive ps) owner' ids'
      (fun i => (rs i).run (ps.filter (fun p => p.fd = i))) := by
  induction ps generalizing t owner ids rs with
  | nil => exact ⟨owner, ids, by simpa [FileTable.receive] using h⟩
  | cons p ps ih =>
    obtain ⟨_,_,hstep,_⟩ := handler_refines p h
    obtain ⟨owner',ids',hrun⟩ := ih hstep
    refine ⟨owner', ids', ?_⟩
    have hrs : ∀ i, (rs i).run ((p::ps).filter (fun p => p.fd = i)) =
        (Function.update rs p.fd ((rs p.fd).step p) i).run
          (ps.filter (fun p => p.fd = i)) := by
      intro i
      by_cases hi : p.fd = i
      · subst hi; simp
      · simp [hi, Function.update_of_ne (Ne.symm hi)]
    rw [funext hrs]
    exact hrun

/-- The assertions of `Q_empty` never fail on a queue of the table. -/
theorem receive_emptyChecks {t : FileTable} {owner : ℕ → Fin 17} {ids : Fin 17 → List ℕ}
    {rs : Fin 17 → Receiver} (ps : List Packet) (h : Represents t owner ids rs) (i : Fin 17) :
    ((t.receive ps).fds i).msgQ.EmptyChecks := by
  obtain ⟨_,_,hrun⟩ := receive_refines ps h
  exact (hrun i).queue.emptyChecks

end DistributedPis
