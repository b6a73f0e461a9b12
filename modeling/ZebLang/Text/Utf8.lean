/-
  Texts as UTF-8.

  `bytesOf` gives the bytes of a text.  In the other direction `decode` accepts exactly the well-formed sequences: no overlong forms, no surrogates, nothing above
  U+10FFFF.  On a fault it names the stretch of bytes that began a character and could not end it, and
  why: the first byte starts no character, the next byte cannot continue it, or the bytes end.
-/

import ZebLang.Text.Decimal

namespace ZebLang

/-- The bytes of a text. -/
def bytesOf (text : String) : List UInt8 := text.toList.flatMap String.utf8EncodeChar

/-- One text after another is one run of bytes after another. -/
theorem bytesOf_append (a b : String) : bytesOf (a ++ b) = bytesOf a ++ bytesOf b := by
  unfold bytesOf
  rw [String.toList_append, List.flatMap_append]

namespace Text

/-- Why bytes are not UTF-8. -/
inductive Utf8Reason where
  | start
  | continuation
  | truncated
  deriving DecidableEq, Repr

/-- The wording of a reason. -/
def Utf8Reason.text : Utf8Reason → String
  | .start => "invalid start byte"
  | .continuation => "invalid continuation byte"
  | .truncated => "unexpected end of data"

/-- Bytes that are not UTF-8: `stretch` begins at byte `position`. -/
structure Utf8Fault where
  position : Nat
  stretch : List UInt8
  reason : Utf8Reason
  deriving DecidableEq, Repr

/-- One byte is named by its value, several by their positions. -/
def Utf8Fault.message (f : Utf8Fault) : String :=
  match f.stretch with
  | [b] => "'utf-8' codec can't decode byte 0x" ++ hex 2 b.toNat ++ " in position " ++
      natural f.position ++ ": " ++ f.reason.text
  | _ => "'utf-8' codec can't decode bytes in position " ++ natural f.position ++ "-" ++
      natural (f.position + f.stretch.length - 1) ++ ": " ++ f.reason.text

/-- A character that is begun: its bytes so far in reverse, the bits they gave, how many bytes are
    still to come, and the range in which the next one must lie. -/
structure Utf8Open where
  position : Nat
  seen : List UInt8
  bits : Nat
  missing : Nat
  low : UInt8
  high : UInt8

/-- What a first byte above 0x7f opens.  The range of the second byte shuts out overlong forms,
    surrogates and codes above U+10FFFF. -/
def Utf8Open.ofByte? (position : Nat) (b : UInt8) : Option Utf8Open :=
  let n := b.toNat
  if 0xc2 ≤ n ∧ n ≤ 0xdf then some ⟨position, [b], n - 0xc0, 1, 0x80, 0xbf⟩
  else if n = 0xe0 then some ⟨position, [b], 0, 2, 0xa0, 0xbf⟩
  else if n = 0xed then some ⟨position, [b], 0xd, 2, 0x80, 0x9f⟩
  else if 0xe1 ≤ n ∧ n ≤ 0xef then some ⟨position, [b], n - 0xe0, 2, 0x80, 0xbf⟩
  else if n = 0xf0 then some ⟨position, [b], 0, 3, 0x90, 0xbf⟩
  else if 0xf1 ≤ n ∧ n ≤ 0xf3 then some ⟨position, [b], n - 0xf0, 3, 0x80, 0xbf⟩
  else if n = 0xf4 then some ⟨position, [b], 4, 3, 0x80, 0x8f⟩
  else none

/-- The loop behind `decode`; `done` holds the characters read so far in reverse. -/
def decodeFrom (position : Nat) (done : List Char) (pending : Option Utf8Open) :
    List UInt8 → Except Utf8Fault (List Char)
  | [] =>
      match pending with
      | none => .ok done.reverse
      | some p => .error ⟨p.position, p.seen.reverse, .truncated⟩
  | b :: rest =>
      match pending with
      | none =>
          if b < 0x80 then decodeFrom (position + 1) (Char.ofNat b.toNat :: done) none rest
          else
            match Utf8Open.ofByte? position b with
            | none => .error ⟨position, [b], .start⟩
            | some p => decodeFrom (position + 1) done (some p) rest
      | some p =>
          if p.low ≤ b ∧ b ≤ p.high then
            let bits := p.bits * 64 + (b.toNat - 0x80)
            if p.missing ≤ 1 then decodeFrom (position + 1) (Char.ofNat bits :: done) none rest
            else
              decodeFrom (position + 1) done
                (some ⟨p.position, b :: p.seen, bits, p.missing - 1, 0x80, 0xbf⟩) rest
          else .error ⟨p.position, p.seen.reverse, .continuation⟩

/-- The characters that the bytes spell. -/
def decode (bytes : List UInt8) : Except Utf8Fault (List Char) := decodeFrom 0 [] none bytes

end Text

end ZebLang
