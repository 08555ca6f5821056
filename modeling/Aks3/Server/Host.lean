import Aks3.Lib.Text

/-!
# Which hosts name a bucket

The domains under which a subdomain names a bucket, and the two functions around them: the one that
reads them from the configuration (`virtualHostDomains`) and the one that reads a bucket out of a
`Host` header (`bucketOf`).

Slicing a text at a place that is not a character boundary is a panic. A function of the source that
slices returns an `Option` here, and `none` is the panic.
-/

set_option autoImplicit false

namespace Aks3.Server

open Lib

/-! ## Texts -/

/-- `str::to_ascii_lowercase`. -/
def toAsciiLowercase (s : String) : String := String.ofList (s.toList.map Char.toLower)

/-- `char::is_whitespace`. -/
def isWhitespace (c : Char) : Bool :=
  (0x09 ≤ c.toNat && c.toNat ≤ 0x0D) || c.toNat = 0x20 || c.toNat = 0x85 || c.toNat = 0xA0 ||
    c.toNat = 0x1680 || (0x2000 ≤ c.toNat && c.toNat ≤ 0x200A) || c.toNat = 0x2028 ||
    c.toNat = 0x2029 || c.toNat = 0x202F || c.toNat = 0x205F || c.toNat = 0x3000

/-- `str::trim`. -/
def trim (s : String) : String :=
  String.ofList ((s.toList.dropWhile isWhitespace).rdropWhile isWhitespace)

/-- `str::split` at a character. -/
def split (c : Char) (s : String) : List String := (s.toList.splitOn c).map String.ofList

/-- `str::rsplit_once` at a character. -/
def rsplitOnce (c : Char) (s : String) : Option (String × String) :=
  match s.toList.reverse.dropWhile (· ≠ c) with
  | [] => none
  | _ :: head =>
    some (String.ofList head.reverse, String.ofList (s.toList.reverse.takeWhile (· ≠ c)).reverse)

/-- `str::is_char_boundary`: the place is an end of the text, or a character starts there. -/
def isCharBoundary (s : String) (i : Nat) : Prop :=
  i = 0 ∨ i = (utf8 s).length ∨ ∃ b, (utf8 s)[i]? = some b ∧ b.IsUTF8FirstByte

instance (s : String) (i : Nat) : Decidable (isCharBoundary s i) :=
  decidable_of_iff
    (i = 0 ∨ i = (utf8 s).length ∨ ((utf8 s)[i]?.any fun b => decide b.IsUTF8FirstByte) = true)
    (by simp [isCharBoundary, Option.any_eq_true])

/-- `str::split_at`, which panics inside a character. -/
def splitAt (s : String) (i : Nat) : Option (String × String) :=
  if isCharBoundary s i then
    match fromUtf8 ((utf8 s).take i), fromUtf8 ((utf8 s).drop i) with
    | some front, some back => some (front, back)
    | _, _ => none
  else none

/-- `str::strip_suffix` of a character. -/
def stripSuffix (c : Char) (s : String) : Option String :=
  match s.toList.reverse with
  | [] => none
  | last :: front => if last = c then some (String.ofList front.reverse) else none

def isAsciiDigit (b : UInt8) : Bool := 0x30 ≤ b && b ≤ 0x39

/-! ## Addresses -/

/-- The value of a digit, as `char::to_digit` has it. -/
def toDigit (radix : Nat) (b : UInt8) : Option Nat :=
  let value :=
    if 0x30 ≤ b ∧ b ≤ 0x39 then some (b.toNat - 0x30)
    else if 0x61 ≤ b ∧ b ≤ 0x7A then some (b.toNat - 0x61 + 10)
    else if 0x41 ≤ b ∧ b ≤ 0x5A then some (b.toNat - 0x41 + 10)
    else none
  value.filter (· < radix)

/-- Read a number of at most `maxDigits` digits and below `limit`, returning what follows it. -/
def readNumber (radix maxDigits limit : Nat) (allowZeroPrefix : Bool) (s : Bytes) : Option Bytes :=
  let digits := s.takeWhile fun b => (toDigit radix b).isSome
  let value := digits.foldl (fun n b => n * radix + (toDigit radix b).getD 0) 0
  if digits.length > maxDigits || digits.isEmpty then none
  else if !allowZeroPrefix && s.head? = some 0x30 && digits.length > 1 then none
  else if value < limit then some (s.drop digits.length)
  else none

/-- Read the separator before every part but the first, and then the part. -/
def readSeparator (sep : UInt8) (index : Nat) (inner : Bytes → Option Bytes)
    (s : Bytes) : Option Bytes :=
  if index = 0 then inner s
  else
    match s with
    | [] => none
    | b :: rest => if b = sep then inner rest else none

/-- Read four decimal numbers below 256, without leading zeros, with dots between them. -/
def readIpv4Addr (s : Bytes) : Option Bytes := do
  let octet := readNumber 10 3 256 false
  let s ← readSeparator 0x2E 0 octet s
  let s ← readSeparator 0x2E 1 octet s
  let s ← readSeparator 0x2E 2 octet s
  readSeparator 0x2E 3 octet s

/-- Read up to `left` groups of an IPv6 address, the last two of which may be an IPv4 one: how many
were read, whether they end in an IPv4 address, and what follows. -/
def readGroups : Nat → Nat → Bytes → Nat × Bool × Bytes
  | 0, i, s => (i, false, s)
  | left + 1, i, s =>
    match if 1 ≤ left then readSeparator 0x3A i readIpv4Addr s else none with
    | some rest => (i + 2, true, rest)
    | none =>
      match readSeparator 0x3A i (readNumber 16 4 65536 true) s with
      | some rest => readGroups left (i + 1) rest
      | none => (i, false, s)

/-- Read eight groups, or fewer around a `::`. -/
def readIpv6Addr (s : Bytes) : Option Bytes :=
  match readGroups 8 0 s with
  | (headSize, headIpv4, rest) =>
    if headSize = 8 then some rest
    else if headIpv4 then none
    else
      match rest with
      | 0x3A :: 0x3A :: rest => some (readGroups (8 - (headSize + 1)) 0 rest).2.2
      | _ => none

/-- Whether `str::parse::<IpAddr>` succeeds. -/
def isIpAddr (s : String) : Bool :=
  match readIpv4Addr (utf8 s) with
  | some rest => rest.isEmpty
  | none =>
    match readIpv6Addr (utf8 s) with
    | some rest => rest.isEmpty
    | none => false

example : isIpAddr "127.0.0.1" = true ∧ isIpAddr "::1" = true ∧ isIpAddr "1::2:3.4.5.6" = true ∧
    isIpAddr "01.2.3.4" = false ∧ isIpAddr "1.2.3.4.5" = false ∧
    isIpAddr "fe80::1%eth0" = false := by
  decide

/-! ## The configured domains -/

/-- `ConfigError::Invalid`. -/
structure ConfigError where
  setting : String
  value : String
  expected : String
  deriving DecidableEq, Repr

/-- Whether `s` is a hostname: dot-separated labels of letters, digits and hyphens, none empty. -/
def isHostname (s : String) : Bool :=
  !(utf8 s).isEmpty && ((utf8 s).splitOn 0x2E).all fun label =>
    !label.isEmpty && label.all fun b =>
      isAsciiDigit b || (0x41 ≤ b && b ≤ 0x5A) || (0x61 ≤ b && b ≤ 0x7A) || b = 0x2D

/-- The domains as they are listed: the environment's list, or else the file's. -/
def listedDomains (fromEnv : Option String) (fromFile : Option (List String)) : List String :=
  match fromEnv with
  | some text => (((split ',' text).map trim).filter (· ≠ "")).map toAsciiLowercase
  | none => ((fromFile.getD []).map fun domain => toAsciiLowercase (trim domain)).filter (· ≠ "")

/-- Two domains of which one ends with the other. -/
def overlaps (domain other : String) : Bool :=
  utf8 other <:+ utf8 domain || utf8 domain <:+ utf8 other

/-- The loop of `virtual_host_domains` over the listed domains. -/
def checkDomains : List String → List String → Except ConfigError (List String)
  | domains, [] => .ok domains
  | domains, domain :: listed =>
    if ':' ∈ domain.toList then
      .error ⟨"virtual_host_domains", domain,
        "a hostname without a port, such as \"s3.example.com\" (the port a client " ++
        "connects to is not part of the name it sends)"⟩
    else if !isHostname domain then
      .error ⟨"virtual_host_domains", domain,
        "a hostname of dot-separated letters, digits and hyphens, such as \"s3.example.com\""⟩
    else
      match domains.find? fun other => overlaps domain other with
      | some other =>
        .error ⟨"virtual_host_domains", domain ++ " and " ++ other,
          "domains that do not overlap, so that a host under one of them names one bucket"⟩
      | none => checkDomains (domains ++ [domain]) listed

/-- Settle the virtual-host domains from the two sources. -/
def virtualHostDomains (fromEnv : Option String) (fromFile : Option (List String)) :
    Except ConfigError (List String) :=
  checkDomains [] (listedDomains fromEnv fromFile)

/-! ## The bucket of a host -/

/-- The name half of a `Host` header: the port dropped. -/
def hostWithoutPort (host : String) : String :=
  match rsplitOnce ':' host with
  | some (head, port) =>
    if port ≠ "" ∧ (utf8 port).all isAsciiDigit ∧ head ≠ "" then head else host
  | none => host

/-- The name half of a `Host` header, unless it is an address. -/
def hostName (host : String) : Option String :=
  let name := hostWithoutPort host
  if name.toList.head? = some '[' || isIpAddr name then none else some name

/-- `name` with `domain` and the dot before it removed. -/
def stripDomainSuffix (name domain : String) : Option (Option String) :=
  if (utf8 name).length < (utf8 domain).length then some none
  else
    let at_ := (utf8 name).length - (utf8 domain).length
    if at_ = 0 ∨ ¬ isCharBoundary name at_ then some none
    else
      match splitAt name at_ with
      | none => none
      | some (front, tail) =>
        if !eqIgnoreAsciiCase (utf8 tail) (utf8 domain) then some none
        else
          match stripSuffix '.' front with
          | none => some none
          | some bucket => if bucket = "" then some none else some (some bucket)

/-- The first domain the name is under decides. -/
def findBucket (name : String) : List String → Option (Option String)
  | [] => some none
  | domain :: domains =>
    match stripDomainSuffix name domain with
    | none => none
    | some (some bucket) => some (some bucket)
    | some none => findBucket name domains

/-- The bucket `host` names, if it names one. -/
def bucketOf (domains : List String) (host : String) : Option (Option String) :=
  match hostName host with
  | none => some none
  | some name => (findBucket name domains).map fun bucket => bucket.map toAsciiLowercase

example : bucketOf ["s3.example.com"] "My.Bucket.S3.example.com:9000" = some (some "my.bucket") ∧
    bucketOf ["s3.example.com"] "s3.example.com" = some none ∧
    bucketOf ["s3.example.com"] "é.s3.example.com" = some (some "é") := by
  decide

end Aks3.Server
