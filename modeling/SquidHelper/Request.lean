/-
SquidHelper/Request.lean

A request line and what the worker makes of it: the `sscanf` and `inet_pton` part
of `worker` in `src/core/main.c`, the `request` and `ipaddr` structures, and
`send_response`.

A line is NUL-free: it is the string in its buffer, and `sscanf` would not read past a NUL.
The lines are, as long as no NUL is read (`nul_notMem_linesBeforeEof`).

`inet_pton` is a parameter.  All that is asked of it is that the texts it accepts
are made of the characters of an address (hexadecimal digits, `:` and `.`).
`dottedQuad` is the IPv4 half of the real function.
-/
import SquidHelper.Lib.CString

namespace SquidHelper

open CString

/-! ### Addresses -/

/-- What `inet_pton` leaves in a `sockaddr`: the family and the address bytes. -/
inductive Address
  | inet (sinAddr : Vector Byte 4)
  | inet6 (sin6Addr : Vector Byte 16)
  deriving DecidableEq, Repr

/-- The characters of the textual forms of addresses. -/
def isAddressChar (c : Byte) : Bool :=
  isDigit c || (97 ≤ c && c ≤ 102) || (65 ≤ c && c ≤ 70) || c == 58 || c == 46

/-- `inet_pton` for `AF_INET` and `AF_INET6`. -/
structure InetPton where
  inet : List Byte → Option (Vector Byte 4)
  inet6 : List Byte → Option (Vector Byte 16)
  inet_chars : ∀ {t a}, inet t = some a → t ≠ [] ∧ ∀ c ∈ t, isAddressChar c = true
  inet6_chars : ∀ {t a}, inet6 t = some a → t ≠ [] ∧ ∀ c ∈ t, isAddressChar c = true

/-- The configuration of the build that decides about addresses. -/
structure Build where
  haveIpv6 : Bool
  deriving DecidableEq, Repr

/-- The field width in `"%zu %45s"` and `"%zu %15s"`. -/
def Build.width (b : Build) : ℕ := if b.haveIpv6 then 45 else 15

/-- `AF_INET6` is tried first when it is there. -/
def resolve (b : Build) (pton : InetPton) (text : List Byte) : Option Address :=
  match if b.haveIpv6 then pton.inet6 text else none with
  | some a => some (.inet6 a)
  | none => (pton.inet text).map .inet

theorem resolve_chars {b : Build} {pton : InetPton} {text : List Byte} {a : Address}
    (h : resolve b pton text = some a) :
    text ≠ [] ∧ ∀ c ∈ text, isAddressChar c = true := by
  unfold resolve at h
  split at h
  case h_1 a₆ h₆ =>
    by_cases hb : b.haveIpv6 = true
    · rw [if_pos hb] at h₆
      exact pton.inet6_chars h₆
    · rw [if_neg hb] at h₆
      cases h₆
  case h_2 =>
    obtain ⟨a₄, h₄, -⟩ := Option.map_eq_some_iff.mp h
    exact pton.inet_chars h₄

/-! ### `inet_pton` on dotted quads -/

/-- The loop of `inet_pton4`: the numbers complete so far and the one under way.  A
number has no leading zero and is at most 255. -/
def dottedQuadLoop : List Byte → List ℕ → Option ℕ → Option (List ℕ)
  | [], done, cur => cur.map fun v => done ++ [v]
  | c :: cs, done, cur =>
      if isDigit c then
        match cur with
        | none => dottedQuadLoop cs done (some (c.toNat - 48))
        | some v =>
            if v = 0 ∨ 255 < v * 10 + (c.toNat - 48) then none
            else dottedQuadLoop cs done (some (v * 10 + (c.toNat - 48)))
      else if c = 46 then cur.bind fun v => dottedQuadLoop cs (done ++ [v]) none
      else none

/-- `inet_pton(AF_INET, ..)`. -/
def dottedQuad (text : List Byte) : Option (Vector Byte 4) :=
  match dottedQuadLoop text [] none with
  | some [a, b, c, d] => some #v[a.toUInt8, b.toUInt8, c.toUInt8, d.toUInt8]
  | _ => none

theorem dottedQuadLoop_chars {cs : List Byte} {done r : List ℕ} {cur : Option ℕ}
    (h : dottedQuadLoop cs done cur = some r) :
    (cs = [] → cur ≠ none) ∧ ∀ c ∈ cs, isAddressChar c = true := by
  induction cs generalizing done cur with
  | nil =>
      refine ⟨?_, by simp⟩
      rintro - rfl
      simp [dottedQuadLoop] at h
  | cons c cs ih =>
      refine ⟨by simp, List.forall_mem_cons.mpr ?_⟩
      unfold dottedQuadLoop at h
      split at h
      case isTrue hd =>
        refine ⟨by simp [isAddressChar, hd], ?_⟩
        cases cur with
        | none => exact (ih h).2
        | some v =>
            simp only at h
            split at h
            -- a leading zero, or a number above 255
            · cases h
            · exact (ih h).2
      case isFalse hd =>
        split at h
        case isTrue hdot =>
          obtain ⟨v, -, h⟩ := Option.bind_eq_some_iff.mp h
          exact ⟨by simp [isAddressChar, hdot], (ih h).2⟩
        case isFalse hdot => cases h

theorem dottedQuad_chars {t : List Byte} {a : Vector Byte 4} (h : dottedQuad t = some a) :
    t ≠ [] ∧ ∀ c ∈ t, isAddressChar c = true := by
  unfold dottedQuad at h
  split at h
  case h_1 hloop =>
    obtain ⟨hne, hall⟩ := dottedQuadLoop_chars hloop
    exact ⟨fun ht => hne ht rfl, hall⟩
  case h_2 => cases h

/-- The real function on dotted quads, with IPv6 texts left out. -/
def ipv4Only : InetPton where
  inet := dottedQuad
  inet6 := fun _ => none
  inet_chars := dottedQuad_chars
  inet6_chars := fun h => by cases h

example : dottedQuad (ascii "192.168.1.41") = some #v[192, 168, 1, 41] := by decide

/-! ### Requests -/

/-- `ipaddr`; `sockaddr` is `none` while it is zeroed. -/
structure IpAddr where
  sockaddr : Option Address
  str : List Byte
  strLen : ℕ
  deriving DecidableEq, Repr

structure Request where
  /-- `response.result`. -/
  result : ℤ
  skipPostHandleRequest : Bool
  channel : ℕ
  ipAddr : IpAddr
  deriving DecidableEq, Repr

/-- A request as `worker` sets it up before it looks at the line. -/
def Request.init : Request := ⟨-1, false, 0, ⟨none, [], 0⟩⟩

/-- `sscanf(line->ptr, "%zu %45s", &req->channel, req->ip_addr.str)` for a line without a NUL: a
conversion that fails leaves its variable and the later ones as they are. -/
def scanRequest (b : Build) (line : List Byte) : Request :=
  match scanSize line with
  | none => .init
  | some (channel, rest) =>
      match scanString b.width rest with
      | none => { Request.init with channel := channel }
      | some (str, _) => { Request.init with channel := channel, ipAddr := ⟨none, str, 0⟩ }

/-- What the worker knows once the line is read. -/
inductive Parsed
  /-- `inet_pton` accepts the address. -/
  | valid (req : Request)
  | invalid (req : Request)
  deriving DecidableEq, Repr

def parseRequest (b : Build) (pton : InetPton) (line : List Byte) : Parsed :=
  let req := scanRequest b line
  match resolve b pton req.ipAddr.str with
  | none => .invalid req
  | some a => .valid { req with ipAddr := ⟨some a, req.ipAddr.str, req.ipAddr.str.length⟩ }

/-- The channel a line is answered on. -/
def lineChannel (line : List Byte) : ℕ :=
  match scanSize line with
  | none => 0
  | some (channel, _) => channel

theorem scanRequest_channel (b : Build) (line : List Byte) :
    (scanRequest b line).channel = lineChannel line := by
  unfold scanRequest lineChannel
  rcases scanSize line with - | ⟨channel, rest⟩
  · rfl
  · simp only
    rcases scanString b.width rest with - | ⟨str, rest'⟩ <;> rfl

/-- A request that was just read has not been answered, and its address fits. -/
theorem scanRequest_fresh (b : Build) (line : List Byte) :
    (scanRequest b line).result = -1 ∧ (scanRequest b line).skipPostHandleRequest = false ∧
      (scanRequest b line).ipAddr.str.length ≤ b.width := by
  unfold scanRequest
  split
  · exact ⟨rfl, rfl, Nat.zero_le _⟩
  · split
    · exact ⟨rfl, rfl, Nat.zero_le _⟩
    case h_2 hstr => exact ⟨rfl, rfl, scanString_length hstr⟩

/-- An accepted request is what was read, with the address filled in. -/
theorem parseRequest_eq_valid {b : Build} {pton : InetPton} {line : List Byte} {req : Request}
    (h : parseRequest b pton line = .valid req) :
    ∃ a, resolve b pton (scanRequest b line).ipAddr.str = some a ∧
      req = { scanRequest b line with
        ipAddr := ⟨some a, (scanRequest b line).ipAddr.str,
          (scanRequest b line).ipAddr.str.length⟩ } := by
  unfold parseRequest at h
  simp only at h
  split at h
  · cases h
  case h_2 a ha =>
    cases h
    exact ⟨a, ha, rfl⟩

/-- A refused one is what was read. -/
theorem parseRequest_eq_invalid {b : Build} {pton : InetPton} {line : List Byte} {req : Request}
    (h : parseRequest b pton line = .invalid req) : req = scanRequest b line := by
  unfold parseRequest at h
  simp only at h
  split at h
  · cases h
    rfl
  · cases h

theorem parseRequest_channel {b : Build} {pton : InetPton} {line : List Byte} {req : Request}
    (h : parseRequest b pton line = .valid req ∨ parseRequest b pton line = .invalid req) :
    req.channel = lineChannel line := by
  rw [← scanRequest_channel b line]
  rcases h with h | h
  · obtain ⟨a, -, rfl⟩ := parseRequest_eq_valid h
    rfl
  · rw [parseRequest_eq_invalid h]

/-- No handler has been asked yet. -/
theorem parseRequest_result {b : Build} {pton : InetPton} {line : List Byte} {req : Request}
    (h : parseRequest b pton line = .valid req) : req.result = -1 := by
  obtain ⟨a, -, rfl⟩ := parseRequest_eq_valid h
  exact (scanRequest_fresh b line).1

/-- Nor has one asked to skip the post handlers. -/
theorem parseRequest_skip {b : Build} {pton : InetPton} {line : List Byte} {req : Request}
    (h : parseRequest b pton line = .valid req) : req.skipPostHandleRequest = false := by
  obtain ⟨a, -, rfl⟩ := parseRequest_eq_valid h
  exact (scanRequest_fresh b line).2.1

/-- A request that is accepted has an address with a length and a text that goes with it. -/
theorem parseRequest_valid {b : Build} {pton : InetPton} {line : List Byte} {req : Request}
    (h : parseRequest b pton line = .valid req) :
    ∃ a, resolve b pton req.ipAddr.str = some a ∧
      req.ipAddr = ⟨some a, req.ipAddr.str, req.ipAddr.str.length⟩ ∧
      req.ipAddr.str.length ≤ b.width := by
  obtain ⟨a, ha, rfl⟩ := parseRequest_eq_valid h
  exact ⟨a, ha, rfl, (scanRequest_fresh b line).2.2⟩

/-- A line that begins with a number followed by white space names its channel. -/
theorem lineChannel_number {ds ws rest : List Byte} (hds : ∀ d ∈ ds, isDigit d = true)
    (hne : ds ≠ []) (hv : decimalValue ds < sizeMod) (hws : ∀ c ∈ ws, isSpace c = true)
    (hne' : ws ≠ []) : lineChannel (ds ++ ws ++ rest) = decimalValue ds := by
  obtain ⟨w, ws', rfl⟩ := List.exists_cons_of_ne_nil hne'
  have hw : isDigit w = false := isDigit_of_isSpace (hws w List.mem_cons_self)
  have hscan : scanSize (ds ++ (w :: ws' ++ rest)) = some (decimalValue ds, w :: ws' ++ rest) :=
    scanSize_digits hds hne (by rintro c ⟨⟩; exact hw) hv
  rw [lineChannel, List.append_assoc, hscan]

/-! ### Responses -/

/-- The line `send_response` prints: `status` 0 is `OK`, everything else `ERR`. -/
def sendResponse (channel : ℕ) (status : ℤ) (msg : Option (List Byte)) : List Byte :=
  decimal channel ++ SP :: (if status = 0 then ascii "OK" else ascii "ERR") ++
    (match msg with
     | none => []
     | some m => ascii " log=" ++ m)

/-- `OK` and `ERR` can be told apart. -/
theorem sendResponse_ok_iff {channel : ℕ} {status status' : ℤ} {msg msg' : Option (List Byte)}
    (h : sendResponse channel status msg = sendResponse channel status' msg') :
    status = 0 ↔ status' = 0 := by
  unfold sendResponse at h
  rw [List.append_assoc, List.append_assoc, List.append_cancel_left_eq, List.cons_append,
    List.cons_append, List.cons_inj_right] at h
  have hhead := congrArg List.head? h
  have hok : ascii "OK" = [79, 75] := by decide
  have herr : ascii "ERR" = [69, 82, 82] := by decide
  by_cases h₀ : status = 0 <;> by_cases h₁ : status' = 0 <;>
    simp_all

theorem firstField_sendResponse (channel : ℕ) (status : ℤ) (msg : Option (List Byte)) :
    firstField (sendResponse channel status msg) = decimal channel := by
  unfold sendResponse
  rw [List.append_assoc, List.cons_append, firstField_decimal]

end SquidHelper
