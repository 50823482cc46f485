import AsrServiceProxy.Utils.StringUtil.Cleaning

namespace AsrServiceProxy

open CMemory StringUtil

structure UrlParser where
  proto : Bytes
  host : Bytes
  uri : Bytes
  port : ℤ
deriving DecidableEq, Repr

namespace UrlParser

-- `s_pro_spl`
def isSeparator (b : UInt8) : Bool := b = 58 || b = 47 || b = 92

-- `strncasecmp` with the length of the scheme.
def beginsWith (scheme text : Bytes) : Bool := toLower (text.take scheme.length) = scheme

-- The protocol, and what stands behind it.
def readProto (proto text : Bytes) : Bytes × Bytes :=
  if beginsWith (ascii "https") text then (ascii "https", text.drop 5)
  else if beginsWith (ascii "http") text then (ascii "http", text.drop 4)
  else (proto, text)

-- The port, and what stands behind it.
def readPort (port : ℤ) : Bytes → ℤ × Bytes
  | 58 :: text =>
      let strPort := (text.takeWhile fun b => !isSeparator b).filter isdigit
      (if strPort = [] then port else atoi strPort, text.dropWhile fun b => !isSeparator b)
  | text => (port, text)

-- What is done with the trimmed URL.
def parseText (parser : UrlParser) (cleanUrl : Bytes) : Except Exn UrlParser := do
  let (proto, text) := readProto parser.proto (cstr cleanUrl)
  let text := text.dropWhile isSeparator
  let host ← trim (text.takeWhile fun b => !isSeparator b)
  let (port, text) := readPort parser.port (text.dropWhile fun b => !isSeparator b)
  let uri ← trim text
  .ok { proto := proto, host := host, uri := uri, port := port }

def parse (parser : UrlParser) (url : Bytes) : Except Exn UrlParser := do
  let cleanUrl ← trim url
  parser.parseText cleanUrl

-- What the members are initialized with.
def initial : UrlParser := { proto := ascii "http", host := [], uri := [47], port := 80 }

-- The constructor.
def ofUrl (url : Bytes) : Except Exn UrlParser :=
  initial.parse url

end UrlParser

end AsrServiceProxy
