import DistributedPis.Esp.Sketch

/-! How `parsePacket` collects one message: the command packet opens the buffer, every data
packet is stored behind the previous one, and the last one makes the command ready. -/
namespace DistributedPis
namespace Esp

@[simp] lemma packetOf_bytes (p : Packet) : packetOf p.bytes = p := by
  funext k
  simp [packetOf, Packet.ofBytes, Packet.bytes, -List.ofFn_succ]

/-- The buffer contents once the packets `xs` have been stored from its start on. -/
def storeAll (cells : ℕ → Packet) (xs : List Packet) : ℕ → Packet := fun i => xs[i]?.getD (cells i)

theorem storeAll_of_lt (cells : ℕ → Packet) (xs : List Packet) (i : ℕ) (h : i < xs.length) :
    storeAll cells xs i = xs[i] := by simp [storeAll, h]

@[simp] theorem storeAll_nil (cells : ℕ → Packet) : storeAll cells [] = cells := rfl

theorem update_storeAll (cells : ℕ → Packet) (xs : List Packet) (c : ℕ) (h : c < xs.length) :
    Function.update (storeAll cells (xs.take c)) c xs[c] = storeAll cells (xs.take (c+1)) := by
  funext i
  rcases Nat.lt_trichotomy i c with hi | rfl | hi
  · rw [Function.update_of_ne (by omega)]
    simp [storeAll, hi, Nat.lt_succ_of_lt hi]
  · simp [storeAll, h]
  · rw [Function.update_of_ne (by omega)]
    simp [storeAll, Nat.not_lt.mpr (Nat.le_of_lt hi), Nat.not_lt.mpr hi]

/-- The buffer of message `hdr::ds` after its command packet and `c` of its data packets. -/
def collected (malloc : Option (ℕ → Packet)) (hdr : Packet) (ds : List Packet) (c : ℕ) : PiBuff :=
  checkFull ⟨false, malloc.map (fun cells => ⟨32*ds.length % 2^32, storeAll cells (ds.take c)⟩),
    ds.length, c, hdr.cmnd, hdr⟩

/-- What the parser asks of a message. -/
structure IsMessage (hdr : Packet) (ds : List Packet) : Prop where
  isCmd : hdr.isCmd = true
  nbytes : hdr.nbytes ≠ 0
  cmnd : hdr.cmnd ≠ 0
  size : npckts hdr.size = ds.length
  data : ∀ p ∈ ds, p.isCmd = false ∧ p.nbytes ≠ 0

theorem cmdPckts_isMessage (heap : ℕ → UInt8) (cmd toId fromId : UInt8) (bytes : List UInt8)
    (hcmd : cmd ≠ 0) (hlen : bytes.length < 2^32) :
    ∃ hdr ds, cmdPckts heap cmd toId fromId bytes = hdr::ds ∧ IsMessage hdr ds ∧
      ds = dataPckts toId fromId bytes ∧ hdr.cmnd = cmd ∧ hdr.espTo = toId.toNat % 16 := by
  refine ⟨_, _, rfl, ⟨by simp, by simp [cmdNbytes], by simpa using hcmd, ?_, ?_⟩, rfl,
    by simp, by simp⟩
  · rw [espCmndPckt_size, Nat.mod_eq_of_lt hlen, dataPckts_length]
  · intro p hp
    have h := isDataPckt_of_mem hp
    exact ⟨h.isCmd, h.nbytes_pos.ne'⟩

@[simp] theorem checkFull_cmnd (b : PiBuff) : (checkFull b).cmnd = b.cmnd := by
  unfold checkFull; split <;> rfl
@[simp] theorem checkFull_buff (b : PiBuff) : (checkFull b).buff = b.buff := by
  unfold checkFull; split <;> rfl
@[simp] theorem checkFull_numPckts (b : PiBuff) : (checkFull b).numPckts = b.numPckts := by
  unfold checkFull; split <;> rfl
@[simp] theorem checkFull_cmndPckt (b : PiBuff) : (checkFull b).cmndPckt = b.cmndPckt := by
  unfold checkFull; split <;> rfl

section Steps
variable {malloc : Option (ℕ → Packet)} {hdr : Packet} {ds : List Packet} {s : Esp}

theorem collected_of_lt {c : ℕ} (h : c < ds.length) :
    collected malloc hdr ds c =
      ⟨false, malloc.map (fun cells => ⟨32*ds.length % 2^32, storeAll cells (ds.take c)⟩),
        ds.length, c, hdr.cmnd, hdr⟩ := by
  rw [collected, checkFull, if_neg (by simpa using (Nat.ne_of_gt h))]

theorem collected_runRdy {c : ℕ} (h : c ≤ ds.length) :
    (collected malloc hdr ds c).runRdy = true ↔ c = ds.length := by
  rcases Nat.lt_or_eq_of_le h with h | rfl
  · rw [collected_of_lt h]
    exact ⟨fun hr => (Bool.false_ne_true hr).elim, fun he => (Nat.ne_of_lt h he).elim⟩
  · simp [collected, checkFull]

/-- A packet changes the packet buffer and may drain the serial line. -/
theorem parsePacket_frame {p : Packet} {t : Esp} (h : s.parsePacket malloc p = some t) :
    ∃ b bs, bs <:+ s.mySerial ∧ t = {s with fromPi := b, mySerial := bs} := by
  have hclean : ∃ b bs, bs <:+ s.mySerial ∧ s.clean = {s with fromPi := b, mySerial := bs} :=
    ⟨_, [], List.nil_suffix, rfl⟩
  unfold parsePacket at h
  dsimp only at h
  split_ifs at h
  · cases h; exact hclean
  · cases h; exact hclean
  · cases h; exact hclean
  · cases h; exact ⟨_, _, List.suffix_rfl, rfl⟩
  · cases h; exact hclean
  · split at h
    · cases h; exact hclean
    · split at h <;> cases h
      exact ⟨_, _, List.suffix_rfl, rfl⟩

/-- The command packet opens an idle buffer. -/
theorem parsePacket_header (hm : IsMessage hdr ds) {q : Packet} (hs : s.fromPi = idleBuff q) :
    s.parsePacket malloc hdr = some {s with fromPi := collected malloc hdr ds 0} := by
  have hc : (collected malloc hdr ds 0) = checkFull ⟨false,
      malloc.map (fun cells => ⟨32*ds.length % 2^32, cells⟩), ds.length, 0, hdr.cmnd, hdr⟩ := by
    simp [collected]
  simp [parsePacket, hs, idleBuff, hm.isCmd, hm.nbytes, hm.cmnd, hm.size, hc]

/-- A data packet goes into the next cell, as long as the block reaches that far. -/
theorem parsePacket_data (hm : IsMessage hdr ds) {cells : ℕ → Packet} {c : ℕ}
    (hc : c < ds.length) (hs : s.fromPi = collected (some cells) hdr ds c)
    (hfit : 32*c + 32 ≤ 32*ds.length % 2^32) (malloc' : Option (ℕ → Packet)) :
    s.parsePacket malloc' ds[c] =
      some {s with fromPi := collected (some cells) hdr ds (c+1)} := by
  have hd := hm.data ds[c] (List.getElem_mem hc)
  rw [collected_of_lt hc] at hs
  simpa [parsePacket, hs, hd.1, hd.2, hm.cmnd, update_storeAll cells ds c hc, collected] using hfit

end Steps

/-- Parse a list of packets, each call with the same answer from `malloc`. -/
def parseAll (malloc : Option (ℕ → Packet)) (ps : List Packet) (s : Esp) : Option Esp :=
  ps.foldlM (fun s p => s.parsePacket malloc p) s

/-- The packets that fit in the block are all stored. -/
theorem parseAll_take {malloc : Option (ℕ → Packet)} {hdr : Packet} {ds : List Packet} {s : Esp}
    (hm : IsMessage hdr ds) {cells : ℕ → Packet}
    (hs : s.fromPi = collected (some cells) hdr ds 0) (c : ℕ) (hc : c ≤ ds.length)
    (hfit : 32*c ≤ 32*ds.length % 2^32) :
    parseAll malloc (ds.take c) s = some {s with fromPi := collected (some cells) hdr ds c} := by
  induction c with
  | zero => simp [parseAll, ← hs]
  | succ c ih =>
    have hstep := parsePacket_data (s := {s with fromPi := collected (some cells) hdr ds c}) hm
      (by omega) rfl (by omega) malloc
    rw [parseAll, List.take_succ_eq_append_getElem (by omega), List.foldlM_append]
    change (parseAll malloc (ds.take c) s).bind _ = _
    rw [ih (by omega) (by omega)]
    simpa using hstep

theorem parseAll_data {malloc : Option (ℕ → Packet)} {hdr : Packet} {ds : List Packet} {s : Esp}
    (hm : IsMessage hdr ds) {cells : ℕ → Packet}
    (hs : s.fromPi = collected (some cells) hdr ds 0) (hfit : 32*ds.length < 2^32) :
    parseAll malloc ds s = some {s with fromPi := collected (some cells) hdr ds ds.length} := by
  have h : parseAll malloc (ds.take ds.length) s = _ :=
    parseAll_take hm hs ds.length le_rfl (by rw [Nat.mod_eq_of_lt hfit])
  rwa [List.take_length] at h

end Esp
end DistributedPis
