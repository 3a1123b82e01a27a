import DistributedPis.Esp.Collect
import DistributedPis.Library.Run

/-! The sketch at the packet level: a packet is handled, and the command it completes is run,
before the next one arrives. Every store to the packet buffer is inside the block as long as
the 32 bit product that `malloc` gets does not wrap. -/
namespace DistributedPis
open Library

/-- A packet from the Pi, with the answers its handling gets. -/
structure Arrival where
  pckt : Packet
  env : Env

namespace Esp

def deliver (server : Bool) (s : Esp) (a : Arrival) : Option Esp := do
  let t ← s.parsePacket a.env.malloc a.pckt
  if t.fromPi.runRdy then t.runCmnd server a.env [] else some t

section Loop
variable {server : Bool} {s : Esp} {a : Arrival}

lemma loop_parse (hrelays : s.relays server a.env = some s) (hrdy : s.fromPi.runRdy = false)
    (hline : s.mySerial = []) : s.loop server a.env a.pckt.bytes [] =
      (s.parsePacket a.env.malloc a.pckt).map fun t => (t, .parsed a.pckt.bytes) := by
  have htake : a.pckt.bytes.take 32 = a.pckt.bytes := List.take_of_length_le (by simp)
  have hdrop : a.pckt.bytes.drop 32 = [] := List.drop_eq_nil_of_le (by simp)
  have hsame : { s with mySerial := ([] : List UInt8) } = s := by rw [← hline]
  rw [loop, hrelays, Option.map_eq_bind]
  simp [hrdy, hline, htake, hdrop, hsame]

lemma loop_run (hrelays : s.relays server a.env = some s) (hrdy : s.fromPi.runRdy = true) :
    s.loop server a.env [] [] = (s.runCmnd server a.env []).map fun t => (t, .ran s.fromPi) := by
  rw [loop, hrelays, Option.map_eq_bind]
  simp [hrdy]

/-- While no connection has anything to relay, a packet takes one iteration of `loop()`, and its
command another one. -/
theorem deliver_eq_loop (hrelays : s.relays server a.env = some s)
    (hrdy : s.fromPi.runRdy = false) (hline : s.mySerial = [])
    (hquiet : ∀ t, s.parsePacket a.env.malloc a.pckt = some t → t.relays server a.env = some t) :
    deliver server s a = (s.loop server a.env a.pckt.bytes []).bind fun r =>
      if r.1.fromPi.runRdy then (r.1.loop server a.env [] []).map Prod.fst else some r.1 := by
  rw [loop_parse hrelays hrdy hline, deliver]
  cases hparse : s.parsePacket a.env.malloc a.pckt with
  | none => rfl
  | some t =>
    simp only [Option.bind_eq_bind, Option.bind_some, Option.map_some]
    split
    · rename_i hready
      rw [loop_run (hquiet t hparse) hready, Option.map_map]
      exact (Option.map_id' ..).symm
    · rfl

end Loop

/-- What holds of the packet buffer between two packets. -/
structure Orderly (b : PiBuff) : Prop where
  waits : b.runRdy = false
  idle : b.cmnd = 0 → b = idleBuff b.cmndPckt
  size : ∀ m, b.buff = some m → m.size = 32*b.numPckts % 2^32
  few : b.numPckts < 2^28
  behind : b.cmnd ≠ 0 → b.curPckts < b.numPckts

/-- The packet is a data packet for the command that is being collected. -/
def TakesData (b : PiBuff) (p : Packet) : Prop :=
  b.cmnd ≠ 0 ∧ b.buff.isSome = true ∧ p.nbytes ≠ 0 ∧ p.isCmd = false

/-- Behind a command with 2^27 or more packets the block has a cell only for the surplus. -/
def InRoom (s : Esp) (a : Arrival) : Prop :=
  TakesData s.fromPi a.pckt →
    s.fromPi.numPckts < 2^27 ∨ s.fromPi.curPckts + 2^27 < s.fromPi.numPckts

section Invariant
variable {server : Bool} {s t : Esp} {a : Arrival} {malloc : Option (ℕ → Packet)} {p : Packet}

lemma orderly_idle (q : Packet) : Orderly (idleBuff q) :=
  ⟨rfl, fun _ => rfl, by simp [idleBuff], by simp [idleBuff], fun h => absurd rfl h⟩

/-- Everything `parsePacket` can do while no command is ready. -/
theorem parsePacket_cases (hrdy : s.fromPi.runRdy = false)
    (h : s.parsePacket malloc p = some t) :
    t = s.clean ∨
    (p.cmnd ≠ 0 ∧ s.fromPi.cmnd = 0 ∧ ∃ b, t = { s with fromPi := checkFull b } ∧
      b = ⟨false, malloc.map fun cells => ⟨32*npckts p.size % 2^32, cells⟩, npckts p.size,
        s.fromPi.curPckts, p.cmnd, p⟩) ∨
    (s.fromPi.cmnd ≠ 0 ∧ ∃ m b, s.fromPi.buff = some m ∧ t = { s with fromPi := checkFull b } ∧
      b = ⟨false, some { m with cells := Function.update m.cells s.fromPi.curPckts p },
        s.fromPi.numPckts, s.fromPi.curPckts+1, s.fromPi.cmnd, s.fromPi.cmndPckt⟩) := by
  unfold parsePacket at h
  simp only [hrdy, Bool.false_eq_true, if_false] at h
  split at h
  · exact Or.inl (Option.some.inj h).symm
  · split at h
    · split at h
      · exact Or.inl (Option.some.inj h).symm
      · rename_i hcmnd
        rw [not_or] at hcmnd
        exact Or.inr (Or.inl ⟨hcmnd.2, by simpa using hcmnd.1, _, (Option.some.inj h).symm, rfl⟩)
    · split at h
      · exact Or.inl (Option.some.inj h).symm
      · rename_i hcmnd
        split at h
        · exact Or.inl (Option.some.inj h).symm
        · rename_i m hm
          split at h
          · exact Or.inr (Or.inr ⟨hcmnd, m, _, hm, (Option.some.inj h).symm, rfl⟩)
          · cases h

lemma npckts_lt {n : ℕ} (h : n < 2^32) : npckts n < 2^28 := by
  have hlt : 30*npckts n < n+30 := mul_pieces_lt 30 n (by decide)
  omega

/-- While packets are still missing, the command is not run. -/
lemma orderly_checkFull {b : PiBuff} (hrdy : b.runRdy = false) (hcmnd : b.cmnd ≠ 0)
    (hsize : ∀ m, b.buff = some m → m.size = 32*b.numPckts % 2^32) (hfew : b.numPckts < 2^28)
    (hcur : b.curPckts ≤ b.numPckts) :
    (checkFull b).runRdy = true ∨ Orderly (checkFull b) := by
  unfold checkFull
  split
  · exact Or.inl rfl
  · rename_i hne
    exact Or.inr ⟨hrdy, fun h => absurd h hcmnd, hsize, hfew, fun _ => by omega⟩

lemma parsePacket_orderly (hs : Orderly s.fromPi) (h : s.parsePacket malloc p = some t) :
    t.fromPi.runRdy = true ∨ Orderly t.fromPi := by
  rcases parsePacket_cases hs.waits h with rfl | ⟨hp,hidle,b,rfl,rfl⟩ |
    ⟨hcmnd,m,b,hm,rfl,rfl⟩
  · exact Or.inr (orderly_idle _)
  · have hzero : s.fromPi.curPckts = 0 := by rw [hs.idle hidle]; rfl
    refine orderly_checkFull rfl hp ?_ (npckts_lt p.size_lt) (by simp [hzero])
    rintro m hm
    obtain ⟨cells,-,rfl⟩ := Option.map_eq_some_iff.mp hm
    rfl
  · refine orderly_checkFull rfl hcmnd ?_ hs.few (hs.behind hcmnd)
    rintro m' hm'
    cases hm'
    exact hs.size m hm

theorem deliver_orderly (hs : Orderly s.fromPi) (h : deliver server s a = some t) :
    Orderly t.fromPi := by
  obtain ⟨u,hu,h⟩ := Option.bind_eq_some_iff.mp h
  split at h
  · obtain ⟨v,-,hv⟩ := Option.bind_eq_some_iff.mp h
    cases hv
    exact orderly_idle _
  · rename_i hrdy
    cases h
    exact (parsePacket_orderly hs hu).resolve_left hrdy

theorem run_orderly {conns : ℕ → Conn} {as : List Arrival}
    (h : as.foldlM (deliver server) (setup conns) = some t) : Orderly t.fromPi :=
  foldlM_invariant (P := fun s : Esp => Orderly s.fromPi) (fun _ _ _ => deliver_orderly)
    (orderly_idle _) h

/-- The only store that can go wrong is that of a data packet. -/
theorem parsePacket_isSome_iff (hs : Orderly s.fromPi) :
    (s.parsePacket a.env.malloc a.pckt).isSome = true ↔ InRoom s a := by
  by_cases htakes : TakesData s.fromPi a.pckt
  · obtain ⟨hcmnd,hbuff,hbytes,hcmd⟩ := htakes
    obtain ⟨m,hm⟩ := Option.isSome_iff_exists.mp hbuff
    have hsize := hs.size m hm
    have hfew := hs.few
    have hcur := hs.behind hcmnd
    have hroom : InRoom s a ↔ 32*s.fromPi.curPckts+32 ≤ m.size := by
      rw [InRoom, imp_iff_right ⟨hcmnd,hbuff,hbytes,hcmd⟩, hsize]
      omega
    rw [hroom]
    unfold parsePacket
    simp only [hs.waits, hbytes, hcmd, hcmnd, hm, Bool.false_eq_true, if_false]
    split <;> rename_i hfit <;> simp [hfit]
  · refine iff_of_true ?_ fun h => absurd h htakes
    unfold parsePacket TakesData at *
    simp only [hs.waits, Bool.false_eq_true, if_false]
    split
    · rfl
    · split
      · split <;> rfl
      · split
        · rfl
        · split
          · rfl
          · simp_all

end Invariant

/-- In a run of the sketch that starts with `setup()`, no packet is stored outside the block that
`malloc` returned. -/
def StoresInBlock (server : Bool) (conns : ℕ → Conn) (as : List Arrival) : Prop :=
  ∀ ys a zs, as = ys ++ a::zs → ∀ s, ys.foldlM (deliver server) (setup conns) = some s →
    (s.parsePacket a.env.malloc a.pckt).isSome = true

theorem storesInBlock_iff (server : Bool) (conns : ℕ → Conn) (as : List Arrival) :
    StoresInBlock server conns as ↔ Meets (deliver server) InRoom (setup conns) as := by
  have hstep : ∀ s a t, Orderly s.fromPi → deliver server s a = some t → Orderly t.fromPi :=
    fun _ _ _ => deliver_orderly
  exact splits_iff_meets hstep (fun s a hs => parsePacket_isSome_iff hs) (orderly_idle _)

/-- A command packet that announces 2^27 packets. -/
def wrappingPckt : Packet := espCmndPckt 9 1 1 0 espSendData (30*2^27)

/-- `malloc` is called for no bytes, and the first data packet has no cell. -/
theorem wrapped_product_overflows : ¬ StoresInBlock true (fun _ => ⟨false, [], [], .unset⟩)
    [⟨wrappingPckt, plainEnv⟩, ⟨espPckt 30 1 1 [], plainEnv⟩] := by
  intro h
  have hcount : npckts (30*2^27 % 2^32) = 2^27 := by norm_num [npckts, pieces, dataNbytes]
  let s := setup fun _ => ⟨false, [], [], .unset⟩
  let b : PiBuff := ⟨false, some ⟨0, fun _ _ => 0⟩, 2^27, 0, espSendData, wrappingPckt⟩
  have hopen : deliver true s ⟨wrappingPckt, plainEnv⟩ =
      some { s with fromPi := b } := by
    simp only [deliver, parsePacket, s, b, setup, idleBuff, plainEnv, wrappingPckt,
      espCmndPckt_nbytes, espCmndPckt_isCmd, espCmndPckt_cmnd, espCmndPckt_size, hcount]
    simp [checkFull, espSendData]
  have hnone : Esp.parsePacket plainEnv.malloc (espPckt 30 1 1 []) { s with fromPi := b } = none := by
    simp [parsePacket, b, espSendData]
  have hstore := h [_] _ [] rfl _ (by rw [List.foldlM_cons, hopen]; rfl)
  rw [hnone] at hstore
  cases hstore

end Esp
end DistributedPis
