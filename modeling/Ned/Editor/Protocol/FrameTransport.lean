import Ned.Library.Scanner
import Mathlib.Algebra.Group.Nat.Defs

/-!
# The wire framing

A frame is a length, a byte of flags and a body, which zstd may have compressed, as in
`Editor/Protocol/FrameTransport.cpp`. Frames are taken from a buffer that bytes arrive in.
-/

namespace Ned.Editor.Protocol

/-! ## zstd -/

/-- The calls of zstd. A size that is an error is the error it names. -/
structure Zstd where
  /-- `ZSTD_compress`, with room for `ZSTD_compressBound` bytes. -/
  compress : List UInt8 → Except String (List UInt8)
  /-- `ZSTD_getFrameContentSize`, `none` when it is unknown or there is no frame. -/
  frameContentSize : List UInt8 → Option Nat
  /-- `ZSTD_decompress`, with room for so many bytes. -/
  decompress : List UInt8 → Nat → Except String (List UInt8)

def compressBound (size : Nat) : Nat :=
  size + size / 2 ^ 8 + if size < 128 * 2 ^ 10 then (128 * 2 ^ 10 - size) / 2 ^ 11 else 0

/-- What is documented of zstd. -/
structure Zstd.Lawful (zstd : Zstd) : Prop where
  bound : ∀ {payload body}, zstd.compress payload = .ok body →
    body.length ≤ compressBound payload.length
  contentSize : ∀ {payload body}, zstd.compress payload = .ok body →
    zstd.frameContentSize body = some payload.length
  inverts : ∀ {payload body}, zstd.compress payload = .ok body →
    zstd.decompress body payload.length = .ok payload
  /-- No bytes are no frame. -/
  empty : zstd.frameContentSize [] = none

/-! ## Frames -/

def kMaxFrameBytes : Nat := 64 * 2 ^ 20

/-- Below this, compression costs more than it saves. -/
def kCompressMinBytes : Nat := 1024

def kFrameFlagZstd : UInt8 := 0x01

def kFrameHeaderBytes : Nat := 5

def header (length : Nat) (flags : UInt8) : List UInt8 :=
  let value := length % 2 ^ 32
  [.ofNat (value >>> 24), .ofNat (value >>> 16), .ofNat (value >>> 8), .ofNat value, flags]

structure FrameHeader where
  length : Nat := 0
  flags : UInt8 := 0
  deriving DecidableEq

def parseHeader (header : List UInt8) : Except String FrameHeader :=
  let byte := fun i => (header.getD i 0).toNat
  let parsed : FrameHeader :=
    { length := byte 0 <<< 24 ||| byte 1 <<< 16 ||| byte 2 <<< 8 ||| byte 3
      flags := header.getD 4 0 }
  if parsed.flags &&& ~~~kFrameFlagZstd ≠ 0 then
    .error "ned: frame has a reserved flag set"
  else if parsed.length > kMaxFrameBytes then
    .error "ned: frame length exceeds the size cap"
  else
    .ok parsed

section

variable (zstd : Zstd)

def compressFrame (payload : List UInt8) : Except String (List UInt8) :=
  match zstd.compress payload with
  | .error name => .error ("ned: frame compression failed: " ++ name)
  | .ok body => .ok body

/-- The compressed body, or nothing when the payload goes out as it is. -/
def compressIfWorthIt (payload : List UInt8) (compress : Bool) : Except String (List UInt8) :=
  if payload.length > kMaxFrameBytes then
    .error "ned: frame payload exceeds the size cap"
  else if compress = true ∧ payload.length ≥ kCompressMinBytes then
    compressFrame zstd payload
  else
    .ok []

def decompressFrame (payload : List UInt8) : Except String (List UInt8) :=
  match zstd.frameContentSize payload with
  | none => .error "ned: compressed frame has no readable content size"
  | some size =>
      if size > kMaxFrameBytes then
        .error "ned: compressed frame decompresses past the size cap"
      else
        match zstd.decompress payload size with
        | .error _ => .error "ned: compressed frame is corrupt"
        | .ok out =>
            if out.length ≠ size then .error "ned: compressed frame is corrupt" else .ok out

def encodeFrame (payload : List UInt8) (compress : Bool) : Except String (List UInt8) := do
  let compressed ← compressIfWorthIt zstd payload compress
  let body := if compressed = [] then payload else compressed
  return header body.length (if compressed = [] then 0 else kFrameFlagZstd) ++ body

def frameBody (header : FrameHeader) (payload : List UInt8) : Except String (List UInt8) :=
  if header.flags &&& kFrameFlagZstd ≠ 0 then decompressFrame zstd payload else .ok payload

/-- The frames at the front of the buffer, and what is left in it. -/
def takeFrames (bytes : List UInt8) : Except String (List (List UInt8) × List UInt8) :=
  if kFrameHeaderBytes ≤ bytes.length then do
    let header ← parseHeader (bytes.take kFrameHeaderBytes)
    if bytes.length - kFrameHeaderBytes < header.length then
      return ([], bytes)
    else
      let frame ← frameBody zstd header ((bytes.drop kFrameHeaderBytes).take header.length)
      let (frames, left) ← takeFrames (bytes.drop (kFrameHeaderBytes + header.length))
      return (frame :: frames, left)
  else
    return ([], bytes)
termination_by bytes.length
decreasing_by
  simp only [List.length_drop, kFrameHeaderBytes] at *
  omega

/-- Takes frames after each piece of the stream. -/
def feedFrames : List UInt8 → List (List UInt8) → Except String (List (List UInt8) × List UInt8)
  | bytes, [] => .ok ([], bytes)
  | bytes, piece :: pieces => do
      let (frames, bytes) ← takeFrames zstd (bytes ++ piece)
      let (later, bytes) ← feedFrames bytes pieces
      return (frames ++ later, bytes)

/-- However the stream is cut, its payloads arrive, and no part of it is refused. -/
structure RoundTrips (stream : List UInt8) (payloads : List (List UInt8)) : Prop where
  pieces : ∀ pieces : List (List UInt8), pieces.flatten = stream →
    feedFrames zstd [] pieces = .ok (payloads, [])
  accepted : ∀ part, part <+: stream → ∃ taken, takeFrames zstd part = .ok taken

end

end Ned.Editor.Protocol
