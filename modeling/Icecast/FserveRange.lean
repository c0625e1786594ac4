import Icecast.FserveDelivery
import Icecast.Httpp
import Icecast.ResponseHeader

namespace Icecast.FserveRange
open Bytes ConfigMounts ResponseHeader Httpp
open FserveDelivery (Fserve left BUFSIZE)

-- What fserve_client_create meets for a regular file: the configuration, the contents if
-- fopen opens it, the result of fserve_content_type, the Range header, whether fseeko and
-- the calloc of fserve_add_client succeed, and the time.
structure FileRequest where
  config : Config
  fileserve : Bool
  file : Option (List UInt8)
  contentType : Text
  range : Option Text
  seeks : Bool
  memory : Bool
  now : Option Tm
  id : Nat

-- What it leaves: the status the client is answered with, how often it closed the file,
-- and the entry it gave the file server.
structure Outcome where
  status : Int
  closes : Nat
  entry : Option Fserve
deriving DecidableEq

-- sscanf of an off_t: strtoll, none when it does not return 1.
def scanOffset (text : Text) : Option Int :=
  match text.dropWhile Decimal.isSpace with
  | [] => none
  | c::rest =>
    let digits := if c = 45 ∨ c = 43 then rest else c::rest
    if (digits.head?.map Decimal.isDigit).getD false then
      some (max (-2^63) (min (2^63-1) (if c = 45 then -(Decimal.leading digits : Int) else Decimal.leading digits)))
    else none

-- The number a Range header starts with.
def rangenumber (range : Text) : Option Int :=
  if lowercase (range.take 6) = ascii "bytes=" then scanOffset (range.drop 6) else none

def lengthLines (contentLength : Int) : Text :=
  ascii "Accept-Ranges: bytes"++crlf++ascii "Content-Length: "++Decimal.ofInt contentLength++crlf++crlf

def rangeLines (newContentLen rangenumber endpos contentLength : Int) : Text :=
  ascii "Accept-Ranges: bytes"++crlf++ascii "Content-Length: "++Decimal.ofInt newContentLen++crlf++
    ascii "Content-Range: bytes "++Decimal.ofInt rangenumber++ascii "-"++Decimal.ofInt endpos++ascii "/"++
    Decimal.ofInt contentLength++crlf++crlf

section Create

variable (fnmatch : Text → Text → Bool) (r : FileRequest)

def respond (status : Int) : Reply := ⟨false,status,none,some r.contentType,none,none,none,r.now⟩

-- The fserve_t of the client: `bytes` bytes of its buffer, and the file from its offset.
def entryOf (data : Text) (bytes : Nat) (file : List UInt8) : Fserve :=
  ⟨r.id,data.take bytes,[],0,Nat.zero_le _,some file,false,false,false⟩

-- The header, the lines behind it, and fserve_add_client with the file at its offset. The
-- exits that answer 500 and 404 return with the file open.
def sendFile (data : Text) (status : Int) (lines file : List UInt8) : Option Outcome :=
  (utilHttpBuildHeader fnmatch data BUFSIZE 0 r.config (respond r status)).bind fun (bytes,data) =>
  if bytes = -1 ∨ bytes ≥ BUFSIZE-512 then some ⟨500,0,none⟩ else
  (snprintf data bytes.toNat (BUFSIZE-bytes.toNat) lines).map fun data =>
  if r.memory then ⟨status,0,some (entryOf r data (bytes.toNat+lines.length) file)⟩ else ⟨404,0,none⟩

-- `data` is httpclient->refbuf->data.
def fserveClientCreate (data : Text) : Option Outcome :=
  if r.fileserve = false then some ⟨404,0,none⟩ else
  match r.file with
  | none => some ⟨404,0,none⟩
  | some content =>
    let contentLength : Int := content.length
    match r.range with
    | some range =>
      match rangenumber range with
      | none => some ⟨416,1,none⟩
      | some start =>
        if start < 0 ∨ r.seeks = false ∨ contentLength-start < 0 then some ⟨416,1,none⟩ else
        let endpos := if start+(contentLength-start)-1 < 0 then 0 else start+(contentLength-start)-1
        sendFile fnmatch r data 206 (rangeLines (contentLength-start) start endpos contentLength)
          (content.drop start.toNat)
    | none => sendFile fnmatch r data 200 (lengthLines contentLength) content

end Create

-- The contents of a file that may be sent and can be opened.
def served (r : FileRequest) : Option (List UInt8) := if r.fileserve then r.file else none

end Icecast.FserveRange
