/-
The Cuda, as the packet engine behind the VIA: `machine/src/cuda.cpp`.

The host sends a packet, type byte first, and the Cuda answers with one. What there is of the
ADB and the I2C buses is in the answers; every packet with a byte in it gets one
(`three_le_response`).
-/
import OpenPowerMac.Word

set_option autoImplicit false

namespace OpenPowerMac

def kAdb : U8 := 0#8
def kPseudo : U8 := 1#8
def kError : U8 := 2#8

def cAutopoll : U8 := 0x01#8
def cGetTime : U8 := 0x03#8
def cGetPram : U8 := 0x07#8
def cSetTime : U8 := 0x09#8
def cSetPram : U8 := 0x0C#8
def cGetSetIic : U8 := 0x22#8
def cCombinedIic : U8 := 0x25#8

def kSpdAddr : U8 := 0xA0#8

/-- `kSpd`: the serial presence detect of the one module. -/
def kSpd : List U8 :=
  [0x80#8, 0x08#8, 0x04#8, 0x0C#8, 0x09#8, 0x01#8, 0x40#8, 0x00#8,
    0x01#8, 0x0A#8, 0x07#8, 0x00#8, 0x80#8, 0x08#8, 0x00#8, 0x01#8,
    0x0F#8, 0x04#8, 0x0C#8, 0x01#8, 0x01#8, 0x00#8, 0x0E#8, 0x0A#8,
    0x00#8, 0x00#8, 0x00#8, 0x00#8, 0x00#8, 0x00#8, 0x00#8, 0x10#8,
    0x00#8, 0x00#8, 0x00#8, 0x00#8, 0x00#8, 0x00#8, 0x00#8, 0x00#8,
    0x00#8, 0x00#8, 0x00#8, 0x00#8, 0x00#8, 0x00#8, 0x00#8, 0x00#8,
    0x00#8, 0x00#8, 0x00#8, 0x00#8, 0x00#8, 0x00#8, 0x00#8, 0x00#8,
    0x00#8, 0x00#8, 0x00#8, 0x00#8, 0x00#8, 0x00#8, 0x12#8, 0x00#8]

/-- `kRtcBase`: the clock's first second. -/
def kRtcBase : U32 := 3029529600#32

structure Cuda where
  pram : U8 → U8
  resp : List U8
  autopoll : Bool
  timeOffset : U32

namespace Cuda

def hasResponse (c : Cuda) : Bool := !c.resp.isEmpty

def consumeResponse (c : Cuda) : Cuda := { c with resp := [] }

def reply (c : Cuda) (r : List U8) : Cuda := { c with resp := r }

/-- The checksum of the presence detect. -/
def spdSum : U32 := (kSpd.take 63).foldl (fun sum b => sum + b.setWidth 32) 0#32

/-- The presence detect from byte `sub` on, its last byte the checksum. -/
def spdFrom (sub : U8) : List U8 := (kSpd.take 63 ++ [spdSum.setWidth 8]).drop sub.toNat

/-- `Cuda::pseudo`: a command to the Cuda itself. -/
def pseudo (c : Cuda) (pkt : List U8) : Cuda :=
  let cmd := pkt.getD 1 0xFF#8
  let r := [kPseudo, 0#8, cmd]
  if cmd = cGetTime then
    let t := kRtcBase + c.timeOffset
    c.reply (r ++ [t.extractLsb' 24 8, t.extractLsb' 16 8, t.extractLsb' 8 8, t.extractLsb' 0 8])
  else if cmd = cSetTime then
    -- a packet too short for its data is answered but sets nothing
    match pkt with
    | _ :: _ :: b2 :: b3 :: b4 :: b5 :: _ =>
      let t : U32 := (b2.setWidth 32 <<< 24) ||| (b3.setWidth 32 <<< 16) ||| (b4.setWidth 32 <<< 8)
        ||| b5.setWidth 32
      { c with timeOffset := t - kRtcBase }.reply r
    | _ => c.reply r
  else if cmd = cGetPram then
    c.reply (r ++ [c.pram (pkt.getD 2 0#8)])
  else if cmd = cSetPram then
    match pkt with
    | _ :: _ :: b2 :: b3 :: _ => { c with pram := Function.update c.pram b2 b3 }.reply r
    | _ => c.reply r
  else if cmd = cAutopoll then
    { c with autopoll := decide (pkt.getD 2 0#8 ≠ 0#8) }.reply r
  else if cmd = cCombinedIic then
    if pkt.getD 2 0#8 = kSpdAddr then c.reply (r ++ spdFrom (pkt.getD 3 0#8))
    else c.reply [kError, 0#8, cmd]
  else if cmd = cGetSetIic then
    let wa := pkt.getD 2 0#8
    if wa &&& 0xFE#8 = kSpdAddr &&& 0xFE#8 then
      if wa &&& 1#8 ≠ 0#8 then c.reply (r ++ spdFrom (pkt.getD 3 0#8)) else c.reply r
    else c.reply [kError, 0#8, cmd]
  else c.reply r

/-- `Cuda::adb`: a command to the bus, where a keyboard is at 2 and a mouse at 3. -/
def adb (c : Cuda) (pkt : List U8) : Cuda :=
  let cmd := pkt.getD 1 0#8
  let addr := cmd >>> 4
  let op := (cmd >>> 2) &&& 3#8
  let regn := cmd &&& 3#8
  if op = 3#8 then
    if addr ≠ 2#8 ∧ addr ≠ 3#8 then c.reply [kAdb, 0x01#8, cmd]
    else if regn = 3#8 then
      c.reply [kAdb, 0#8, cmd, 0x60#8 ||| addr, if addr = 2#8 then 0x02#8 else 0x01#8]
    else c.reply [kAdb, 0x01#8, cmd]
  else c.reply [kAdb, 0#8, cmd]

/-- `Cuda::hostPacket`: a whole packet from the host. -/
def hostPacket (c : Cuda) : List U8 → Cuda
  | [] => c
  | type :: rest =>
    if type = kAdb then c.adb (type :: rest)
    else if type = kPseudo then c.pseudo (type :: rest)
    else c.reply [kError, 2#8, type]

/-! ## Every packet is answered -/

theorem three_le_reply (c : Cuda) {r : List U8} (h : 3 ≤ r.length) : 3 ≤ (c.reply r).resp.length := h

theorem three_le_pseudo (c : Cuda) (pkt : List U8) : 3 ≤ (c.pseudo pkt).resp.length := by
  unfold pseudo
  dsimp only
  split_ifs
  · exact three_le_reply _ (by simp)
  · split
    · exact three_le_reply _ (by simp)
    · exact three_le_reply _ (by simp)
  · exact three_le_reply _ (by simp)
  · split
    · exact three_le_reply _ (by simp)
    · exact three_le_reply _ (by simp)
  all_goals exact three_le_reply _ (by simp)

theorem three_le_adb (c : Cuda) (pkt : List U8) : 3 ≤ (c.adb pkt).resp.length := by
  unfold adb
  dsimp only
  split_ifs
  all_goals exact three_le_reply _ (by simp)

/-- A packet with a byte in it gets an answer, of three bytes at least. -/
theorem three_le_response (c : Cuda) {pkt : List U8} (h : pkt ≠ []) :
    3 ≤ (c.hostPacket pkt).resp.length := by
  rcases pkt with _ | ⟨type, rest⟩
  · exact absurd rfl h
  · rw [hostPacket]
    split_ifs
    · exact three_le_adb c _
    · exact three_le_pseudo c _
    · exact three_le_reply c (by simp)

theorem hostPacket_response (c : Cuda) {pkt : List U8} (h : pkt ≠ []) :
    (c.hostPacket pkt).resp ≠ [] := by
  intro hnil
  have hlen := c.three_le_response h
  rw [hnil] at hlen
  simp at hlen

/-- The keyboard answers for its handler. -/
example (c : Cuda) : (c.hostPacket [kAdb, 0x2F#8]).resp = [kAdb, 0#8, 0x2F#8, 0x62#8, 0x02#8] := by
  rfl

end Cuda

end OpenPowerMac
