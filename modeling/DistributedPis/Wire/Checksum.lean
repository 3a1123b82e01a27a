import DistributedPis.Wire.SendCmd

/-! What the checksum of a command packet covers. `send_cmd` hashes 1024 bytes from the start of
its packet array, which has room for any number of packets of 32 bytes. -/
namespace DistributedPis
open Library

/-- How many bytes the hash reads, the first packet's being the first. A null pointer is not
read. -/
def hashedBytes (pckts : List Packet) : ℕ := if pckts = [] then 0 else 32*pktNbytes

/-- The hash of all the packets and of nothing else. -/
def wholeHash (pckts : List Packet) : UInt32 :=
  fastHash32 (if pckts = [] then none else some (wire pckts))

section Hash
variable {heap : ℕ → UInt8} {pckts : List Packet}

lemma checksum_nil : checksum heap [] = wholeHash [] := by
  rw [checksum, wholeHash, if_pos rfl, if_pos rfl]

lemma hashedBytes_of_ne (h : pckts ≠ []) : hashedBytes pckts = 1024 := if_neg h

/-- The bytes that are hashed: those of the packets, and then what lies behind the array. -/
lemma checksum_eq (h : pckts ≠ []) : checksum heap pckts =
    fastHash32 (some ((wire pckts ++ (List.range 1024).map heap).take (hashedBytes pckts))) := by
  rw [checksum, if_neg h, hashedBytes_of_ne h]
  rfl

/-- An array of more than 32 packets is hashed in part. -/
lemma checksum_long (h : 32 ≤ pckts.length) :
    checksum heap pckts = fastHash32 (some ((wire pckts).take 1024)) := by
  have hne : pckts ≠ [] := List.ne_nil_of_length_pos (by omega)
  rw [checksum_eq hne, hashedBytes_of_ne hne, List.take_append_of_le_length (by simp; omega)]

lemma checksum_exact (h : pckts.length = 32) : checksum heap pckts = wholeHash pckts := by
  have hne : pckts ≠ [] := List.ne_nil_of_length_pos (by omega)
  rw [checksum_long h.ge, List.take_of_length_le (by simp [h]), wholeHash, if_neg hne]

end Hash

/-- The checksum of a call is the hash of its packets, what lies behind the array does not show in
what is sent, and the hash reads the bytes of the array, all of them and no other. -/
structure Covers (cmd toId fromId : UInt8) (bytes : List UInt8) : Prop where
  cksum : ∀ heap, ((sendCmd heap cmd toId fromId bytes).bind List.head?).map Packet.cksum =
    some (wholeHash (dataPckts toId fromId bytes)).toNat
  same : ∀ heap heap', sendCmd heap cmd toId fromId bytes = sendCmd heap' cmd toId fromId bytes
  exactly : hashedBytes (dataPckts toId fromId bytes) = (wire (dataPckts toId fromId bytes)).length

section Covers
variable {cmd toId fromId : UInt8} {bytes : List UInt8}

lemma sendCmd_cksum (heap : ℕ → UInt8) (cmd toId fromId : UInt8) (bytes : List UInt8) :
    ((sendCmd heap cmd toId fromId bytes).bind List.head?).map Packet.cksum =
      if bytes.length ≤ maxPayload then some (checksum heap (dataPckts toId fromId bytes)).toNat
      else none := by
  rw [sendCmd_eq]
  split
  · rw [Option.bind_some, cmdPckts, List.head?_cons, Option.map_some, espCmndPckt_cksum,
      Nat.mod_eq_of_lt (UInt32.toNat_lt _)]
  · rfl

/-- Whatever makes the checksum right for every heap also makes the packets the same. -/
lemma Covers.of_checksum (hlen : bytes.length ≤ maxPayload)
    (h : ∀ heap, checksum heap (dataPckts toId fromId bytes) =
      wholeHash (dataPckts toId fromId bytes))
    (hall : hashedBytes (dataPckts toId fromId bytes) =
      (wire (dataPckts toId fromId bytes)).length) : Covers cmd toId fromId bytes where
  cksum heap := by rw [sendCmd_cksum, if_pos hlen, h]
  same heap heap' := by simp only [sendCmd_eq, cmdPckts, h]
  exactly := hall

lemma Covers.checksum (h : Covers cmd toId fromId bytes) (heap : ℕ → UInt8) :
    checksum heap (dataPckts toId fromId bytes) = wholeHash (dataPckts toId fromId bytes) := by
  have hck := h.cksum heap
  rw [sendCmd_cksum] at hck
  split at hck
  · exact UInt32.toNat_inj.mp (Option.some.inj hck)
  · cases hck

/-- There are 32 data packets exactly for 931 to 960 bytes. -/
lemma dataPckts_length_iff (toId fromId : UInt8) (bytes : List UInt8) :
    (dataPckts toId fromId bytes).length = 32 ↔ 930 < bytes.length ∧ bytes.length ≤ 960 := by
  have hpckts : ∀ k, k < (dataPckts toId fromId bytes).length ↔ 30*k < bytes.length := fun k => by
    rw [dataPckts_length]
    exact lt_pieces 30 _ k (by decide)
  have h31 := hpckts 31
  have h32 := hpckts 32
  omega

/-- The checksum covers the message exactly if there are no packets or 32 of them. -/
theorem covers_iff (cmd toId fromId : UInt8) (bytes : List UInt8) :
    Covers cmd toId fromId bytes ↔
      bytes = [] ∨ (930 < bytes.length ∧ bytes.length ≤ 960) := by
  by_cases hnil : bytes = []
  · subst hnil
    exact iff_of_true (.of_checksum (Nat.zero_le _) (fun _ => checksum_nil) rfl) (.inl rfl)
  · have hne : dataPckts toId fromId bytes ≠ [] := by
      refine List.ne_nil_of_length_pos ?_
      rw [dataPckts_length]
      exact (lt_pieces 30 _ 0 (by decide)).mpr (List.length_pos_iff.mpr hnil)
    rw [or_iff_right hnil]
    constructor
    · intro h
      have hall := h.exactly
      rw [hashedBytes_of_ne hne, wire_length] at hall
      exact (dataPckts_length_iff toId fromId bytes).mp (by omega)
    · intro hbytes
      have hlen := (dataPckts_length_iff toId fromId bytes).mpr hbytes
      refine .of_checksum (hbytes.2.trans (by decide)) (fun _ => checksum_exact hlen) ?_
      rw [hashedBytes_of_ne hne, wire_length, hlen]

/-- One data packet: the hash reads the 992 bytes behind it too, and they change the message. -/
theorem one_packet_overread :
    sendCmd (fun _ => 0) espSendData 2 1 [7] ≠ sendCmd (fun _ => 1) espSendData 2 1 [7] ∧
      ¬Covers espSendData 2 1 [7] := by
  have hck : checksum (fun _ => 0) (dataPckts 2 1 [7]) ≠
      checksum (fun _ => 1) (dataPckts 2 1 [7]) := by decide +kernel
  refine ⟨fun h => hck ?_, fun h => hck ((h.checksum _).trans (h.checksum _).symm)⟩
  have hhead := congrArg (fun ps => (ps.bind List.head?).map Packet.cksum) h
  have hlen : [(7 : UInt8)].length ≤ maxPayload := by decide
  simp only [sendCmd_cksum, if_pos hlen, Option.some.injEq] at hhead
  exact UInt32.toNat_inj.mp hhead

end Covers
end DistributedPis
