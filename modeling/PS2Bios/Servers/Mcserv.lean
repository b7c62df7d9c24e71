import PS2Bios.Library.Bytes
import PS2Bios.Library.Word
import PS2Bios.Servers.Operations

/-!
# CDVDFSV and MCSERV

Of CDVDFSV's services only `sceCdSearchFile` puts anything into EE memory: the request buffer is
the struct it fills, and goes back whole, whatever the search has come to.

MCSERV's record of the slot, and the entries of a directory one by one, go out through `record`.
-/

namespace PS2Bios.Servers

open Sif

namespace Cdvdfsv

/-- Where a search's path lies in the request. -/
def kSearchPathOffset : UInt32 := 0x20

/-- Where the address for the record lies in the request. -/
def kSearchAddressOffset : UInt32 := 0x120

/-- The words of a reply cell. -/
def kReplyWords : ℕ := 0x20

/-- `serveSearch`: the record goes to the client whether the file was found or not. -/
def serveSearch (L : Layout) : Server Answer := do
  let bytes := L.request .cdvdfsv
  let result ← call (.searchFile bytes (bytes + kSearchPathOffset))
  let destination ← loadWord (bytes + kSearchAddressOffset)
  sendToEe bytes destination kSearchFileBytes
  return ⟨some (result.value :: List.replicate (kReplyWords - 1) 0),
    [(destination, kSearchFileBytes.toNat)]⟩

end Cdvdfsv

namespace Mcserv

/-- The number of the first request. -/
def kFnoBase : UInt32 := 0x70

/-- How many request numbers there are. -/
def kFnoCount : UInt32 := 17

/-- The request for a directory's entries. -/
def kFnoGetDir : UInt32 := 0x76

/-- The request for what a slot holds. -/
def kFnoSlotInfo : UInt32 := 0x78

/-- The answer to a number that is no request. -/
def kNotServed : ℤ := -5

/-- What a function of `serve` answers, and what it says it has delivered. -/
abbrev Result := ℤ × List (UInt32 × ℕ)

/-- A word of the request. -/
def word (L : Layout) (index : UInt32) : Server UInt32 :=
  loadWord (L.request .mcserv + index * 4)

/-- The record that is sent is nought to begin with. -/
def clearRecord (L : Layout) : Server Unit := store L.record (zeros kRecordBytes.toNat)

/-- The record goes to the address the request names, if it names one. -/
def sendSlotInfo (L : Layout) (found : ℤ) : Server Result := do
  if (← word L 7) ≠ 0 then
    let ee_address ← word L 7
    sendToEe ee_address L.record kRecordBytes
    return (found, [(ee_address, kRecordBytes.toNat)])
  else
    return (found, [])

/-- `serveSlotInfo`: the card is detected, and its record sent where the client asked for it. -/
def serveSlotInfo (L : Layout) : Server Result := do
  let port ← word L 1
  let slot ← word L 2
  let found ← call (.detect port slot)
  clearRecord L
  if (← word L 3) ≠ 0 then
    let type ← call (.type port)
    store L.record (Bytes.wordBytes (toWord type.value))
  sendSlotInfo L found.value

/-- The records sent so far, from `start` on. -/
def recordsSent (start sent : UInt32) : Result :=
  (int32 sent.toNat, [(start, kRecordBytes.toNat * sent.toNat)])

/-- The count of the records sent does not wrap around. -/
theorem toNat_add_one {sent wanted : UInt32} (h : sent.toNat < wanted.toNat) :
    (sent + 1).toNat = sent.toNat + 1 := by
  have hlt := wanted.toNat_lt
  have hone : (1 : UInt32).toNat = 1 := rfl
  rw [UInt32.toNat_add, hone]
  omega

/-- The loop of `serveGetDir`: `mode` is `1` behind the first entry. -/
def getDir (L : Layout) (port slot path start wanted : UInt32) (mode ee_address sent : UInt32) :
    Server Result :=
  if _ : sent < wanted then do
    let entry ← call (.getdir port slot path mode 1 L.record)
    if entry.value ≠ 1 then
      return recordsSent start sent
    else
      sendToEe ee_address L.record kRecordBytes
      getDir L port slot path start wanted 1 (ee_address + kRecordBytes) (sent + 1)
  else
    return recordsSent start sent
termination_by wanted.toNat - sent.toNat
decreasing_by
  have hlt := UInt32.lt_iff_toNat_lt.mp ‹sent < wanted›
  rw [toNat_add_one hlt]
  omega

/-- `serveGetDir`: the entries are sent to the client one after another. -/
def serveGetDir (L : Layout) : Server Result := do
  let port ← word L 0
  let slot ← word L 1
  let mode ← word L 2
  let wanted ← word L 3
  let ee_address ← word L 4
  let path := L.request .mcserv + 0x14
  if ee_address = 0 then
    return (0, [])
  else
    getDir L port slot path ee_address wanted mode ee_address 0

/-- `serve`: the request's number decides. -/
def serve (L : Layout) (fno : UInt32) : Server Answer := do
  if kFnoCount ≤ fno - kFnoBase then
    return ⟨some [kNotServed], []⟩
  else if fno = kFnoSlotInfo then
    let result ← serveSlotInfo L
    return ⟨some [result.1], result.2⟩
  else if fno = kFnoGetDir then
    let result ← serveGetDir L
    return ⟨some [result.1], result.2⟩
  else
    return ⟨some [kNotServed], []⟩

end Mcserv

/-! ### What they say they have delivered -/

variable {L : Layout} {w : Watch}

/-- **CDVDFSV**: what it says it has delivered is carried by the transfer it has handed over. -/
theorem Cdvdfsv.serveSearch_wp (hquiet : w.Quiet .cdvdfsv) :
    (serveSearch L).wp (watch L .cdvdfsv) (Delivered .cdvdfsv) w := by
  have hown : L.Owns .cdvdfsv (L.request .cdvdfsv) kSearchFileBytes.toNat :=
    Layout.Owns.take (L.request_own .cdvdfsv) (by decide)
  simp only [serveSearch, Prog.wp_bind, wp_call, wp_loadWord]
  refine ⟨?_, fun result bytes => ?_⟩
  · rintro b ⟨⟩
    exact ⟨hquiet, hown⟩
  · refine wp_sendAndWait hquiet hown (by decide) (by decide) ⟨.inr rfl, fun d hd => ?_⟩
    obtain rfl := List.mem_singleton.mp hd
    exact carry_last (k := 0) (UInt32.add_zero _) (Nat.le_of_eq (Nat.zero_add _))

namespace Mcserv

/-- MCSERV may touch its memory at any time, and all it says it has delivered is carried. -/
def Recorded (r : Result) (w : Watch) : Prop := ∀ d ∈ r.2, Carry w.sent d.1 d.2

theorem quiet : w.Quiet .mcserv := .inl rfl

theorem wp_word {index : UInt32} {Q : UInt32 → Watch → Prop} (hQ : ∀ x, Q x w) :
    (word L index).wp (watch L .mcserv) Q w :=
  wp_loadWord.mpr fun _ => hQ _

/-- A record goes out. -/
theorem sendRecord_wp {ee_address : UInt32} {Q : Unit → Watch → Prop}
    (hQ : ∀ b, Q () ⟨w.sent ++ [transferOf L.record ee_address kRecordBytes], b⟩) :
    (sendToEe ee_address L.record kRecordBytes).wp (watch L .mcserv) Q w :=
  wp_mcserv_sendToEe quiet L.record_own (by decide) (by decide) hQ

/-- The record of a slot is sent before it is answered. -/
theorem sendSlotInfo_wp {found : ℤ} : (sendSlotInfo L found).wp (watch L .mcserv) Recorded w := by
  unfold sendSlotInfo
  rw [Prog.wp_bind]
  refine wp_word fun x => ?_
  split
  · rw [Prog.wp_bind]
    refine wp_word fun ee_address => ?_
    rw [Prog.wp_bind]
    refine sendRecord_wp fun b d hd => ?_
    obtain rfl := List.mem_singleton.mp hd
    exact carry_last (k := 0) (UInt32.add_zero _) (Nat.le_of_eq (Nat.zero_add _))
  · exact nofun

/-- What is answered of a slot is what was recorded. -/
theorem serveSlotInfo_wp : (serveSlotInfo L).wp (watch L .mcserv) Recorded w := by
  unfold serveSlotInfo clearRecord
  rw [Prog.wp_bind]
  refine wp_word fun port => ?_
  rw [Prog.wp_bind]
  refine wp_word fun slot => ?_
  rw [Prog.wp_bind, wp_call]
  refine ⟨nofun, fun found => ?_⟩
  rw [Prog.wp_bind, wp_store, zeros, List.length_replicate]
  refine ⟨⟨quiet, L.record_own⟩, ?_⟩
  rw [Prog.wp_bind]
  refine wp_word fun asked => ?_
  split
  · rw [Prog.wp_bind, wp_call]
    refine ⟨nofun, fun type => ?_⟩
    rw [Prog.wp_bind, wp_store]
    exact ⟨⟨quiet, Layout.Owns.take L.record_own (show 4 ≤ 0x40 by decide)⟩, sendSlotInfo_wp⟩
  · exact sendSlotInfo_wp

/-- What `getDir` has sent of the directory. -/
theorem getDir_wp {port slot path start wanted mode ee_address sent : UInt32}
    (hee : ee_address = start + UInt32.ofNat (kRecordBytes.toNat * sent.toNat))
    (hcarry : Carry w.sent start (kRecordBytes.toNat * sent.toNat)) :
    (getDir L port slot path start wanted mode ee_address sent).wp (watch L .mcserv)
      Recorded w := by
  have hdone : Recorded (recordsSent start sent) w := by
    intro d hd
    obtain rfl := List.mem_singleton.mp hd
    exact hcarry
  induction hleft : wanted.toNat - sent.toNat using Nat.strong_induction_on
    generalizing mode ee_address sent w with
  | h left ih =>
    rw [getDir]
    split
    next hgo =>
      have hlt := UInt32.lt_iff_toNat_lt.mp hgo
      have hnext := toNat_add_one hlt
      rw [Prog.wp_bind, wp_call]
      refine ⟨?_, fun entry => ?_⟩
      · rintro b ⟨⟩
        exact ⟨quiet, L.record_own⟩
      · split
        · exact hdone
        · rw [Prog.wp_bind]
          refine sendRecord_wp fun b => ?_
          have hmore : Carry (w.sent ++ [transferOf L.record ee_address kRecordBytes]) start
              (kRecordBytes.toNat * (sent + 1).toNat) := by
            rw [hnext, Nat.mul_succ]
            refine (hcarry.more _).add (carry_last (k := 0) ?_ (Nat.le_of_eq (Nat.zero_add _)))
            exact (UInt32.add_zero _).trans hee
          refine ih _ ?_ ?_ hmore ?_ rfl
          · rw [hnext]
            omega
          · rw [hnext, Nat.mul_succ, UInt32.ofNat_add, ← UInt32.add_assoc, ← hee]
            rfl
          · intro d hd
            obtain rfl := List.mem_singleton.mp hd
            exact hmore
    next => exact hdone

/-- As many records are answered as were sent. -/
theorem serveGetDir_wp : (serveGetDir L).wp (watch L .mcserv) Recorded w := by
  unfold serveGetDir
  rw [Prog.wp_bind]
  refine wp_word fun port => ?_
  rw [Prog.wp_bind]
  refine wp_word fun slot => ?_
  rw [Prog.wp_bind]
  refine wp_word fun mode => ?_
  rw [Prog.wp_bind]
  refine wp_word fun wanted => ?_
  rw [Prog.wp_bind]
  refine wp_word fun ee_address => ?_
  split
  · exact nofun
  · exact getDir_wp (UInt32.add_zero _).symm carry_zero

/-- **MCSERV**: what it says it has delivered is carried by the transfers it has handed over. -/
theorem serve_wp {fno : UInt32} : (serve L fno).wp (watch L .mcserv) (Delivered .mcserv) w := by
  unfold serve
  split
  · exact ⟨quiet, nofun⟩
  split
  · rw [Prog.wp_bind]
    exact Prog.wp_mono serveSlotInfo_wp fun _ _ h => ⟨quiet, h⟩
  split
  · rw [Prog.wp_bind]
    exact Prog.wp_mono serveGetDir_wp fun _ _ h => ⟨quiet, h⟩
  · exact ⟨quiet, nofun⟩

end Mcserv

end PS2Bios.Servers
