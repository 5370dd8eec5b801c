import EFramework.Structure.Stringtab
import EFramework.Structure.Text
import EFramework.Structure.BufferIO.Transfer

/-! # Responses of `http.c`

A response keeps its bytes in a block of its own, with two positions in it.
-/

namespace EFramework

open Lib

def maxRespBufsize : Nat := 4096

def maxHeaderBufsize : Nat := 1024

inductive RespStatus where
  | init
  | header
  | body
  | done
deriving Repr, DecidableEq

/-- `bufend` and `bufsend` are positions in `buf`. -/
structure CurlResponse where
  status : Int
  respStatus : RespStatus
  contentLength : Int
  contentReceived : Int
  bufend : Nat
  bufsend : Nat
  chunkRemain : Int
  headers : Stringtab
  buf : Bytes
deriving Repr, DecidableEq

def colon : Bytes := [58]

end EFramework
