import EFramework.Lib.CInt
import EFramework.Lib.Outcome
import EFramework.Structure.BufferIO.Transfer
import EFramework.Structure.Text

/-! # The reply parsers of `redis.c`

A parser gets a place in the buffer and the connection. The functions of `string.h`
do not know where the received bytes end: behind them they find what earlier reads
have left, and reading behind the buffer itself has no result.

Each parser takes `reply_read_more` as its argument `more`. What becomes of a loop that has
not ended, and of a step that is undefined, is left to the kind of outcome: it is no result, or
a reason for it.
-/

namespace EFramework

open Lib (CString.skip asInt asLong)

/-- What a parser returns: NULL, a pointer that has not been set, or a reply. A string is its
`len` bytes of memory. -/
inductive RedisReply where
  | nil
  | unset
  | null
  | long (d : Int)
  | str (buf : Bytes) (len : Int)
  | arr (num : Nat) (elem : List RedisReply)
  | err (type err : Bytes)
deriving Repr

/-- `ef_redis_connection_t`, with the stream of its socket and the allocator; `stop` is `end`, and
`buf` has `RES_BUFSIZE` bytes. The marks are not part of the program: they are `seek` and `end`
behind each call of a parser. -/
structure RedisConnection where
  buf : Bytes
  seek : Nat
  stop : Nat
  src : Source
  heap : Heap
  marks : List (Nat × Nat)
deriving Repr, DecidableEq

def maxTransfer : Nat := 0x7ffff000

namespace RedisConnection

/-- `con->end - con->seek`. -/
def pending (con : RedisConnection) : Nat := sizeT ((con.stop : Int) - con.seek)

def text (con : RedisConnection) (buf : Nat) : Bytes := con.buf.drop buf

def malloc (con : RedisConnection) (size : Nat) : Bool × RedisConnection :=
  let (ok, heap) := con.heap.mallocOf size
  (ok, { con with heap := heap })

def mark (con : RedisConnection) : RedisConnection :=
  { con with marks := con.marks ++ [(con.seek, con.stop)] }

end RedisConnection

def sizeofReply : Nat := 16

/-! ## Reading on -/

/-- The copy in `reply_read_more`. The two places of a `strncpy` must not overlap. -/
def movePending (con : RedisConnection) : Option Bytes :=
  if con.pending = 0 then some con.buf
  else if con.seek < con.pending then none
  else strncpy con.buf 0 (con.text con.seek) con.pending

def replyReadMore (con : RedisConnection) : Option (Int × RedisConnection) := do
  let copylen := con.pending
  let buf ← movePending con
  let (r, _, bytes, src) := efWrapRead (min (con.buf.length - copylen) maxTransfer) con.src
  if r < 0 then some (r, { con with buf := buf, seek := 0, stop := copylen, src := src })
  else
    some (0, { con with
      buf := writeAt buf copylen bytes, seek := 0, stop := copylen + bytes.length, src := src })

/-! ## Parsers -/

/-- The digits before `\r`, each added by `step`, and how many there are. -/
def scanDigits (step : Int → UInt8 → Option Int) : Bytes → Int → Option (Int × Nat)
  | [], _ => none
  | c :: text, n =>
      if c = 13 then some (n, 0)
      else do
        let n ← step n c
        let (n, k) ← scanDigits step text n
        some (n, k + 1)

/-- `n * 10 + (*buf) - '0'`. -/
def longStep (n : Int) (c : UInt8) : Option Int := do
  let n ← asLong (n * 10)
  let n ← asLong (n + c.toInt8.toInt)
  asLong (n - 48)

/-- `len * 10 + (*res - '0')`. -/
def lenStep (len : Int) (c : UInt8) : Option Int := do
  let len ← asInt (len * 10)
  asInt (len + (c.toInt8.toInt - 48))

def parseLen (res : Bytes) : Option Int := do
  let c ← res[0]?
  if c ≠ 36 ∧ c ≠ 42 then some (-1)
  else do
    let d ← res[1]?
    if d = 45 then some (-1)
    else do
      let (len, _) ← scanDigits lenStep (res.drop 1) 0
      some len

/-- The text of a block of `n` bytes, ended by a NUL behind it. -/
def endedCopy (text : Bytes) (n : Nat) : Option Bytes := do
  let copy ← strncpy (List.replicate n 0) 0 text n
  storeAt copy n [0]

/-- The `type` of an error, which stays NULL without memory. -/
def errorType (ok : Bool) (text : Bytes) (n : Nat) : Option Bytes :=
  if ok then endedCopy text n else some []

section Parsers

open Lib.Stopping (spent defined)

variable {M : Type → Type} [Monad M] [Lib.Stopping M]

/-- A parser returns. -/
def returning (out : M (RedisReply × RedisConnection)) : M (RedisReply × RedisConnection) := do
  let (rep, con) ← out
  pure (rep, con.mark)

variable (more : RedisConnection → M (Int × RedisConnection))

/-- The loops of the parsers on `strstr(buf, "\r\n")`. They end with `buf` and how far behind it
the line ends, or with a read that fails. -/
def awaitLine : Nat → Nat → RedisConnection → M (Option (Nat × Nat) × RedisConnection)
  | 0, _, _ => spent
  | fuel + 1, buf, con => do
      match ← defined (strstr (con.text buf) crlf) with
      | some k => pure (some (buf, k), con)
      | none => do
          let (res, con) ← more con
          if res < 0 then pure (none, con) else awaitLine fuel 0 con

def parseLong (fuel buf : Nat) (con : RedisConnection) : M (RedisReply × RedisConnection) :=
  returning do
    let (ok, con) := con.malloc sizeofReply
    if ok then do
      match ← awaitLine more fuel buf con with
      | (none, con) => pure (.nil, con)
      | (some (buf, _), con) => do
          let (n, k) ← defined (scanDigits longStep (con.text (buf + 1)) 0)
          pure (.long n, { con with seek := con.seek + (k + 1) + 2 })
    else pure (.nil, con)

/-- The loop of `parse_string` on a string that has not been received as a whole. -/
def copyRest (strlen : Nat) :
    Nat → Bytes → RedisConnection → M (Option Bytes × RedisConnection)
  | 0, _, _ => spent
  | fuel + 1, content, con =>
      if content.length < strlen then do
        let (res, con) ← more con
        if res < 0 then pure (none, con)
        else if con.pending + content.length < strlen then do
          let bytes ← defined (strncpyBytes (con.text 0) con.pending)
          copyRest strlen fuel (content ++ bytes) { con with seek := con.stop }
        else do
          let bytes ← defined (strncpyBytes (con.text 0) (strlen - content.length))
          pure (some (content ++ bytes),
            { con with seek := con.seek + (strlen - content.length) })
      else pure (some content, con)

def parseString (fuel buf strlen : Nat) (con : RedisConnection) :
    M (RedisReply × RedisConnection) :=
  returning do
    let (ok, con) := con.malloc sizeofReply
    if ok then
      if strlen = sizeT (-1) then pure (.null, con)
      else do
        let (ok, con) := con.malloc sizeofReply
        if ok then do
          let (ok, con) := con.malloc strlen
          if ok then
            if con.pending < strlen then do
              let content ← defined (strncpyBytes (con.text buf) con.pending)
              let (content, con) ← copyRest more strlen fuel content
                { con with seek := con.seek + con.pending }
              match content with
              | none => pure (.nil, con)
              | some content => pure (.str content (toInt32 strlen), con)
            else do
              let content ← defined (strncpyBytes (con.text buf) strlen)
              pure (.str content (toInt32 strlen), { con with seek := con.seek + strlen + 2 })
          else pure (.nil, con)
        else pure (.nil, con)
    else pure (.nil, con)

def parseSingleString (fuel buf : Nat) (con : RedisConnection) :
    M (RedisReply × RedisConnection) :=
  returning do
    match ← awaitLine more fuel (buf + 1) { con with seek := con.seek + 1 } with
    | (none, con) => pure (.nil, con)
    | (some (buf, k), con) => parseString more fuel buf k con

def parseBulkString (fuel buf : Nat) (con : RedisConnection) :
    M (RedisReply × RedisConnection) :=
  returning do
    match ← awaitLine more fuel buf con with
    | (none, con) => pure (.nil, con)
    | (some (buf, k), con) => do
        let strlen ← defined (parseLen (con.text buf))
        parseString more fuel (buf + k + 2) (sizeT strlen) { con with seek := con.seek + (k + 2) }

/-- The loop of `parse_array` on an incomplete line. It does not search again. -/
def readUntilError : Nat → RedisConnection → M RedisConnection
  | 0, _ => spent
  | fuel + 1, con => do
      let (res, con) ← more con
      if res < 0 then pure con else readUntilError fuel con

def parseElem (fuel : Nat)
    (parseArray : Nat → RedisConnection → M (RedisReply × RedisConnection)) (c : UInt8)
    (buf : Nat) (con : RedisConnection) : M (RedisReply × RedisConnection) :=
  if c = 36 then parseBulkString more fuel buf con
  else if c = 58 then parseLong more fuel buf con
  else parseArray buf con

/-- The loop of `parse_array` over the elements. An element of another type is not set. -/
def parseElems (fuel : Nat)
    (parseArray : Nat → RedisConnection → M (RedisReply × RedisConnection)) :
    Nat → Nat → RedisConnection → M (List RedisReply × RedisConnection)
  | 0, _, con => pure ([], con)
  | num + 1, buf, con => do
      let c ← defined con.buf[buf]?
      if c = 36 ∨ c = 58 ∨ c = 42 then do
        let (rep, con) ← parseElem more fuel parseArray c buf con
        let (reps, con) ← parseElems fuel parseArray num con.seek con
        pure (rep :: reps, con)
      else do
        let (reps, con) ← parseElems fuel parseArray num buf con
        pure (.unset :: reps, con)

def parseArray : Nat → Nat → RedisConnection → M (RedisReply × RedisConnection)
  | 0, _, _ => spent
  | fuel + 1, buf, con => returning do
      let (ok, con) := con.malloc sizeofReply
      if ok then do
        match ← defined (strstr (con.text buf) crlf) with
        | none => do
            let con ← readUntilError more fuel con
            pure (.nil, con)
        | some k => do
            let repnum ← defined (parseLen (con.text buf))
            let con := { con with seek := con.seek + (k + 2) }
            let (ok, con) := con.malloc sizeofReply
            if ok then
              if repnum = -1 then pure (.null, con)
              else do
                let (ok, con) := con.malloc (sizeT (sizeT repnum * 8))
                if ok then do
                  let (elem, con) ←
                    parseElems more fuel (parseArray fuel) repnum.toNat (buf + k + 2) con
                  pure (.arr (sizeT repnum) elem, con)
                else pure (.nil, con)
            else pure (.nil, con)
      else pure (.nil, con)

/-- Without a space in the memory `type` is not set and the text is read from address 1. -/
def parseError (fuel buf : Nat) (con : RedisConnection) : M (RedisReply × RedisConnection) :=
  returning do
    let (ok, con) := con.malloc sizeofReply
    if ok then do
      match ← awaitLine more fuel buf con with
      | (none, con) => pure (.nil, con)
      | (some (buf, stop), con) => do
          let (ok, con) := con.malloc sizeofReply
          if ok then do
            match ← defined (strstr (con.text buf) [32]) with
            | none => defined none
            | some pos => do
                let (ok, con) := con.malloc (sizeT ((pos : Int) - 1))
                let type ← defined (errorType ok (con.text (buf + 1)) (pos - 1))
                let spaces ← defined (CString.skip 32 (con.text (buf + pos + 1)))
                let len := (stop : Int) - (pos + 1 + spaces : Nat)
                let (ok, con) := con.malloc (sizeT len)
                if ok then do
                  let errinfo ← defined (endedCopy (con.text (buf + pos + 1 + spaces)) (sizeT len))
                  pure (.err type errinfo, con)
                else defined none
          else pure (.nil, con)
    else pure (.nil, con)

def parseReply (fuel : Nat) (con : RedisConnection) : M (RedisReply × RedisConnection) := do
  let c ← defined con.buf[0]?
  if c = 45 then parseError more fuel 0 con
  else if c = 43 then parseSingleString more fuel 0 con
  else if c = 58 then parseLong more fuel 0 con
  else if c = 42 then parseArray more fuel 0 con
  else if c = 36 then parseBulkString more fuel 0 con
  else pure (.nil, con)

/-- `ef_redis_read_reply`, with `reply_read_more` for its parsers. -/
def readReply (fuel : Nat) (con : RedisConnection) : M (RedisReply × RedisConnection) :=
  let (r, _, bytes, src) := efWrapRead (min con.buf.length maxTransfer) con.src
  if r < 0 then pure (.nil, { con with src := src })
  else
    parseReply more fuel
      { con with buf := writeAt con.buf 0 bytes, seek := 0, stop := bytes.length, src := src }

end Parsers

def efRedisReadReply (fuel : Nat) (con : RedisConnection) :
    Option (RedisReply × RedisConnection) :=
  readReply replyReadMore fuel con

end EFramework
