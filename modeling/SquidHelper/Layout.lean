/-
SquidHelper/Layout.lean

The bytes of a `request`, as `worker` of `src/core/main.c` writes them and as
`webcontrol_memcached_generate_key` of `src/plugins/mod_memcached/webcontrol_memcached.c`
reads them.

`ipaddr` is declared in `webcontrol_base.h` with a `str` whose size depends on
`HAVE_IPV6`, and only `config.h` defines that.  So the layout is a matter of the order in
which a translation unit includes its headers, and `preprocess` follows the includes of
the two units.  `main.c` includes `config.h` first.  The plugin includes
`webcontrol_base.h` before anything that includes `config.h`, and has the small `str` in
every build.

In a build with `HAVE_IPV6` the plugin therefore takes bytes 24 to 31 of the text for
`str_len`.  Up to 24 characters these are zero and the key is the bare prefix, the same
one for every client; beyond that the length is wrong.
-/
import SquidHelper.Lib.Memory
import SquidHelper.Request

namespace SquidHelper

open CString Memory

/-! ### Include order -/

inductive Header
  | config
  | webcontrol
  | webcontrolBase
  | webcontrolBuffer
  | webcontrolDebug
  | webcontrolMemcached
  | webcontrolNetutil
  | webcontrolPlugin
  | webcontrolRequest
  deriving DecidableEq, Repr

/-- What a line of a header has to do with `ipaddr`. -/
inductive Directive
  | includeHeader (h : Header)
  /-- `#define HAVE_IPV6 1`. -/
  | defineHaveIpv6
  /-- The declaration of `ipaddr`. -/
  | ipaddr
  deriving DecidableEq, Repr

/-- The headers, system headers left out. -/
def Header.directives (b : Build) : Header → List Directive
  | config => if b.haveIpv6 then [.defineHaveIpv6] else []
  | webcontrol =>
      [.includeHeader config, .includeHeader webcontrolBase, .includeHeader webcontrolBuffer,
        .includeHeader webcontrolPlugin, .includeHeader webcontrolRequest,
        .includeHeader webcontrolNetutil, .includeHeader webcontrolDebug]
  | webcontrolBase => [.includeHeader webcontrolBuffer, .ipaddr]
  | webcontrolBuffer => []
  | webcontrolDebug => [.includeHeader webcontrolBase]
  | webcontrolMemcached => []
  | webcontrolNetutil => [.includeHeader webcontrolBase, .includeHeader webcontrolBuffer]
  | webcontrolPlugin =>
      [.includeHeader webcontrolBuffer, .includeHeader webcontrolRequest,
        .includeHeader webcontrolBase, .includeHeader webcontrol]
  | webcontrolRequest => [.includeHeader config, .includeHeader webcontrolBase]

inductive TranslationUnit
  | main
  | memcached
  deriving DecidableEq, Repr

def TranslationUnit.directives : TranslationUnit → List Directive
  | main => [.includeHeader .webcontrol]
  | memcached =>
      [.includeHeader .webcontrolMemcached, .includeHeader .webcontrolBase,
        .includeHeader .webcontrolPlugin]

structure Preprocessor where
  /-- The headers whose guards are defined. -/
  guards : List Header
  haveIpv6 : Bool
  /-- `HAVE_IPV6` at the declaration of `ipaddr`. -/
  ipaddr : Option Bool
  deriving DecidableEq, Repr

/-- Go through the lines, putting a header's lines in the place of its include; `none`
when `fuel` is too little. -/
def preprocess (b : Build) : ℕ → Preprocessor → List Directive → Option Preprocessor
  | _, s, [] => some s
  | 0, _, _ :: _ => none
  | fuel + 1, s, .includeHeader h :: ds =>
      if h ∈ s.guards then preprocess b fuel s ds
      else preprocess b fuel { s with guards := h :: s.guards } (h.directives b ++ ds)
  | fuel + 1, s, .defineHaveIpv6 :: ds => preprocess b fuel { s with haveIpv6 := true } ds
  | fuel + 1, s, .ipaddr :: ds => preprocess b fuel { s with ipaddr := some s.haveIpv6 } ds

/-- Whether a unit sees `ipaddr` with `HAVE_IPV6`. -/
def unitHaveIpv6 (b : Build) (u : TranslationUnit) : Option Bool :=
  (preprocess b 64 ⟨[], false, none⟩ u.directives).bind Preprocessor.ipaddr

/-- `main.c` sees what the build says. -/
@[simp] theorem unitHaveIpv6_main (b : Build) : unitHaveIpv6 b .main = some b.haveIpv6 := by
  obtain ⟨haveIpv6⟩ := b
  cases haveIpv6 <;> decide

/-- The plugin never sees `HAVE_IPV6`. -/
@[simp] theorem unitHaveIpv6_memcached (b : Build) : unitHaveIpv6 b .memcached = some false := by
  obtain ⟨haveIpv6⟩ := b
  cases haveIpv6 <;> decide

/-! ### The structures -/

def INET_ADDRSTRLEN : ℕ := 16

def INET6_ADDRSTRLEN : ℕ := 46

/-- `WEBCONTROL_IPADDRSTRLEN`. -/
def ipaddrStrlen (haveIpv6 : Bool) : ℕ := if haveIpv6 then INET6_ADDRSTRLEN else INET_ADDRSTRLEN

def ipaddrMembers (strlen : ℕ) : List Member := [⟨128, 8⟩, ⟨strlen + 1, 1⟩, ⟨8, 8⟩]

/-- `response`, `skip_post_handle_request`, `channel` and `ip_addr`. -/
def requestMembers (strlen : ℕ) : List Member :=
  [structOf [⟨4, 4⟩], ⟨4, 4⟩, ⟨8, 8⟩, structOf (ipaddrMembers strlen)]

/-- `offsetof(request, ip_addr.sockaddr)`. -/
def sockaddrOffset (strlen : ℕ) : ℕ :=
  offsetOf (requestMembers strlen) 3 + offsetOf (ipaddrMembers strlen) 0

/-- `offsetof(request, ip_addr.str)`. -/
def strOffset (strlen : ℕ) : ℕ :=
  offsetOf (requestMembers strlen) 3 + offsetOf (ipaddrMembers strlen) 1

/-- `offsetof(request, ip_addr.str_len)`. -/
def strLenOffset (strlen : ℕ) : ℕ :=
  offsetOf (requestMembers strlen) 3 + offsetOf (ipaddrMembers strlen) 2

/-- `sizeof(request)`. -/
def requestSize (strlen : ℕ) : ℕ := (structOf (requestMembers strlen)).size

section Offsets

variable (strlen : ℕ)

theorem ipAddrOffset_eq : offsetOf (requestMembers strlen) 3 = 16 := by
  simp [offsetOf, offsetsFrom, endFrom, requestMembers, structOf, alignUp, ipaddrMembers]

theorem sockaddrOffset_eq : sockaddrOffset strlen = 16 := by
  rw [sockaddrOffset, ipAddrOffset_eq]
  rfl

theorem strOffset_eq : strOffset strlen = 144 := by
  rw [strOffset, ipAddrOffset_eq]
  simp [offsetOf, offsetsFrom, ipaddrMembers, alignUp]

/-- The text and its length do not overlap. -/
theorem strLenOffset_eq : strLenOffset strlen = 16 + (136 + strlen) / 8 * 8 := by
  rw [strLenOffset, ipAddrOffset_eq]
  simp only [offsetOf, offsetsFrom, ipaddrMembers, alignUp, List.getD_cons_succ,
    List.getD_cons_zero]
  omega

theorem requestSize_eq : requestSize strlen = strLenOffset strlen + 8 := by
  rw [strLenOffset_eq]
  simp [requestSize, requestMembers, structOf, ipaddrMembers, endFrom, alignUp]
  omega

end Offsets

/-! ### Writing a request -/

/-- `ss_family` and the offset and the bytes of the address in a `sockaddr`. -/
def Address.family : Address → ℕ
  | .inet _ => 2
  | .inet6 _ => 10

def Address.offset : Address → ℕ
  | .inet _ => 4
  | .inet6 _ => 8

def Address.bytes : Address → List Byte
  | .inet a => a.toList
  | .inet6 a => a.toList

/-- What `inet_pton` and the line after it store. -/
def addressStores (strlen : ℕ) : Option Address → List (ℕ × List Byte)
  | none => []
  | some a =>
      [(sockaddrOffset strlen + a.offset, a.bytes), (sockaddrOffset strlen, toBytes 2 a.family)]

/-- The stores of `worker` into a fresh `request`.  `response.result` and
`skip_post_handle_request` are stored again later; here they have their last values. -/
def requestStores (strlen : ℕ) (req : Request) : List (ℕ × List Byte) :=
  [(offsetOf (requestMembers strlen) 2, toBytes 8 0),
    (offsetOf (requestMembers strlen) 0, toBytes 4 (req.result % 2 ^ 32).toNat),
    (offsetOf (requestMembers strlen) 1, toBytes 4 req.skipPostHandleRequest.toNat),
    (strOffset strlen, List.replicate strlen 0),
    (sockaddrOffset strlen, List.replicate 128 0),
    -- sscanf
    (offsetOf (requestMembers strlen) 2, toBytes 8 req.channel),
    (strOffset strlen, req.ipAddr.str ++ [NUL])] ++
  addressStores strlen req.ipAddr.sockaddr ++
  [(strLenOffset strlen, toBytes 8 req.ipAddr.strLen)]

/-- The request in memory that `malloc` left with the bytes of `garbage`. -/
def storeRequest (strlen : ℕ) (garbage : ℕ → Byte) (req : Request) :
    Option (Block (requestSize strlen)) :=
  Block.storeAll (fun k => garbage k) (requestStores strlen req)

/-- The address goes into `sockaddr`. -/
theorem addressStores_within {strlen : ℕ} {sockaddr : Option Address} :
    ∀ s ∈ addressStores strlen sockaddr, s.1 + s.2.length ≤ 144 := by
  intro s hs
  cases sockaddr with
  | none => cases hs
  | some a =>
      simp only [addressStores, sockaddrOffset_eq, List.mem_cons, List.not_mem_nil, or_false] at hs
      rcases hs with rfl | rfl
      · cases a <;> simp [Address.offset, Address.bytes]
      · simp

theorem channelOffset_eq (strlen : ℕ) : offsetOf (requestMembers strlen) 2 = 8 := rfl

theorem resultOffset_eq (strlen : ℕ) : offsetOf (requestMembers strlen) 0 = 0 := rfl

theorem skipOffset_eq (strlen : ℕ) : offsetOf (requestMembers strlen) 1 = 4 := rfl

/-- The stores stay inside the request as long as the text fits. -/
theorem storeRequest_isSome {strlen : ℕ} (garbage : ℕ → Byte) {req : Request}
    (h : req.ipAddr.str.length ≤ strlen) : ∃ m, storeRequest strlen garbage req = some m := by
  apply storeAll_isSome _
  intro s hs
  have hsize := requestSize_eq strlen
  have hlen := strLenOffset_eq strlen
  simp only [requestStores, channelOffset_eq, resultOffset_eq, skipOffset_eq, strOffset_eq,
    sockaddrOffset_eq, List.mem_append, List.mem_cons, List.not_mem_nil, or_false] at hs
  rcases hs with ((rfl | rfl | rfl | rfl | rfl | rfl | rfl) | hs) | rfl
  case inl.inr =>
    have hin := addressStores_within s hs
    omega
  all_goals
    simp only [toBytes_length, List.length_append, List.length_replicate, List.length_cons,
      List.length_nil]
    omega

/-- What is in `str` and `str_len` afterwards. -/
theorem storeRequest_spec {strlen : ℕ} {garbage : ℕ → Byte} {req : Request}
    {m : Block (requestSize strlen)} (hm : storeRequest strlen garbage req = some m)
    (h : req.ipAddr.str.length ≤ strlen) :
    (∀ i < strlen, m.byteAt (144 + i)
      = (req.ipAddr.str ++ List.replicate (strlen - req.ipAddr.str.length) NUL)[i]?) ∧
    m.load (strLenOffset strlen) 8 = some (toBytes 8 req.ipAddr.strLen) := by
  have hsize := requestSize_eq strlen
  have hlen := strLenOffset_eq strlen
  have hbyte := byteAt_storeAll hm
  simp only [requestStores, channelOffset_eq, resultOffset_eq, skipOffset_eq, strOffset_eq,
    sockaddrOffset_eq, List.foldl_append, List.foldl_cons, List.foldl_nil] at hbyte
  constructor
  · intro i hi
    rw [hbyte, overwrite_of_outside (by simp only; omega), foldl_overwrite_of_outside fun s hs =>
      .inr ((addressStores_within s hs).trans (Nat.le_add_right ..))]
    rcases Nat.lt_or_ge i (req.ipAddr.str.length + 1) with hin | hout
    · -- as sscanf left it
      rw [overwrite_of_inside (by simpa using hin)]
      rcases Nat.lt_or_ge i req.ipAddr.str.length with hi' | hi'
      · rw [List.getElem?_append_left hi', List.getElem?_append_left hi']
      · obtain rfl : i = req.ipAddr.str.length := by omega
        rw [List.getElem?_concat_length, List.getElem?_append_right le_rfl, Nat.sub_self,
          List.getElem?_replicate_of_lt (by omega)]
    · -- still as bzero left it
      rw [overwrite_of_outside (by simp; omega), overwrite_of_outside (by simp; omega),
        overwrite_of_outside (by simp), overwrite_of_inside (by simpa using hi),
        List.getElem?_append_right (by omega), List.getElem?_replicate_of_lt hi,
        List.getElem?_replicate_of_lt (by omega)]
  · rw [load_eq_some_iff]
    refine ⟨by omega, toBytes_length .., ?_⟩
    intro i hi
    rw [hbyte, overwrite_of_inside (by simpa using hi)]

/-! ### Reading it -/

/-- `WEBCONTROL_MEMCACHED_DEFAULT_KEY_PREFIX`. -/
def WEBCONTROL_MEMCACHED_DEFAULT_KEY_PREFIX : List Byte := ascii "webcontrol_host_"

/-- `webcontrol_memcached_generate_key`, in a unit with this layout, into a zeroed `key` of
`maxKey` bytes; the result is the first `key_len` bytes of it. -/
def generateKey (strlen maxKey : ℕ) {n : ℕ} (request : Block n) : Option (List Byte) := do
  let key : Block maxKey := fun _ => 0
  let len := WEBCONTROL_MEMCACHED_DEFAULT_KEY_PREFIX.length
  let key ← key.store 0 WEBCONTROL_MEMCACHED_DEFAULT_KEY_PREFIX
  let strLen ← (request.load (strLenOffset strlen) 8).map ofBytes
  let str ← request.load (strOffset strlen) strLen
  let key ← key.store len str
  key.load 0 (len + strLen)

theorem generateKey_eq_some_iff {strlen maxKey n : ℕ} {request : Block n} {key : List Byte} :
    generateKey strlen maxKey request = some key ↔
      ∃ bs str, request.load (strLenOffset strlen) 8 = some bs ∧
        request.load 144 (ofBytes bs) = some str ∧ 16 + ofBytes bs ≤ maxKey ∧
        key = WEBCONTROL_MEMCACHED_DEFAULT_KEY_PREFIX ++ str := by
  have hlen : WEBCONTROL_MEMCACHED_DEFAULT_KEY_PREFIX.length = 16 := rfl
  simp only [generateKey, strOffset_eq, hlen, Option.bind_eq_bind, Option.bind_eq_some_iff,
    Option.map_eq_some_iff]
  constructor
  -- both stores stay in `key`, so the text fits behind the prefix
  · rintro ⟨key₁, h₁, _, ⟨bs, hbs, rfl⟩, str, hstr, key₂, h₂, hkey⟩
    have hl := load_length hstr
    have hfit := store_isSome_iff.mp ⟨_, h₂⟩
    refine ⟨bs, str, hbs, hstr, hl ▸ hfit, Option.some.inj (hkey.symm.trans ?_)⟩
    rw [← hl]
    exact load_store_store h₁ h₂
  · rintro ⟨bs, str, hbs, hstr, hfit, rfl⟩
    have hl := load_length hstr
    obtain ⟨key₁, h₁⟩ : ∃ key₁, Block.store (fun _ : Fin maxKey => 0) 0
        WEBCONTROL_MEMCACHED_DEFAULT_KEY_PREFIX = some key₁ := store_isSome_iff.mpr (by omega)
    obtain ⟨key₂, h₂⟩ : ∃ key₂, key₁.store 16 str = some key₂ := store_isSome_iff.mpr (by omega)
    refine ⟨key₁, h₁, _, ⟨bs, hbs, rfl⟩, str, hstr, key₂, h₂, ?_⟩
    rw [← hl]
    exact load_store_store h₁ h₂

/-- The key the plugin makes for a request that the core has written. -/
def pluginKey (b : Build) (maxKey : ℕ) (garbage : ℕ → Byte) (req : Request) :
    Option (List Byte) := do
  let core ← unitHaveIpv6 b .main
  let plugin ← unitHaveIpv6 b .memcached
  let request ← storeRequest (ipaddrStrlen core) garbage req
  generateKey (ipaddrStrlen plugin) maxKey request

/-- **With one layout on both sides the key is the prefix and the text.** -/
theorem generateKey_storeRequest {strlen maxKey : ℕ} {garbage : ℕ → Byte} {req : Request}
    {m : Block (requestSize strlen)} (hm : storeRequest strlen garbage req = some m)
    (hlen : req.ipAddr.strLen = req.ipAddr.str.length) (h : req.ipAddr.str.length ≤ strlen)
    (hsize : strlen < sizeMod) (hmax : 16 + req.ipAddr.str.length ≤ maxKey) :
    generateKey strlen maxKey m
      = some (WEBCONTROL_MEMCACHED_DEFAULT_KEY_PREFIX ++ req.ipAddr.str) := by
  obtain ⟨hstr, hstrLen⟩ := storeRequest_spec hm h
  have hnum : ofBytes (toBytes 8 req.ipAddr.strLen) = req.ipAddr.str.length := by
    rw [hlen]
    exact ofBytes_toBytes (Nat.lt_of_le_of_lt h hsize)
  refine generateKey_eq_some_iff.mpr ⟨_, _, hstrLen, ?_, hnum ▸ hmax, rfl⟩
  rw [hnum, load_eq_some_iff]
  have hsz := requestSize_eq strlen
  have hoff := strLenOffset_eq strlen
  refine ⟨by omega, rfl, ?_⟩
  intro i hi
  rw [hstr i (by omega), List.getElem?_append_left hi]

/-- Without `HAVE_IPV6` the core and the plugin have one layout. -/
theorem pluginKey_inet {b : Build} {maxKey : ℕ} {req : Request} (hb : b.haveIpv6 = false)
    (hmax : 31 ≤ maxKey) (hlen : req.ipAddr.strLen = req.ipAddr.str.length)
    (h : req.ipAddr.str.length ≤ 15) (garbage : ℕ → Byte) :
    pluginKey b maxKey garbage req
      = some (WEBCONTROL_MEMCACHED_DEFAULT_KEY_PREFIX ++ req.ipAddr.str) := by
  have hfit : req.ipAddr.str.length ≤ ipaddrStrlen false := h.trans (by decide)
  obtain ⟨m, hm⟩ := storeRequest_isSome garbage hfit
  rw [pluginKey, unitHaveIpv6_main, unitHaveIpv6_memcached, hb]
  simp only [Option.bind_eq_bind, Option.bind_some, hm]
  exact generateKey_storeRequest hm hlen hfit (by decide) (by omega)

/-! ### The build with `HAVE_IPV6` -/

theorem le_toNat_of_isAddressChar {c : Byte} (h : isAddressChar c = true) : 46 ≤ c.toNat := by
  simp only [isAddressChar, isDigit, Bool.or_eq_true, beq_iff_eq, Bool.and_eq_true,
    decide_eq_true_eq, UInt8.le_iff_toNat_le, ← UInt8.toNat_inj, UInt8.reduceToNat] at h
  omega

/-- `str` of the core. -/
def paddedStr (text : List Byte) : List Byte :=
  text ++ List.replicate (INET6_ADDRSTRLEN - text.length) NUL

theorem paddedStr_length {text : List Byte} (h : text.length ≤ 45) :
    (paddedStr text).length = 46 := by
  simp only [paddedStr, List.length_append, List.length_replicate, INET6_ADDRSTRLEN]
  omega

/-- What the plugin takes for `str_len`. -/
def strLenSeen (text : List Byte) : ℕ := ofBytes (((paddedStr text).drop 24).take 8)

/-- The key is as long as eight bytes of the text say. -/
theorem pluginKey_inet6 {maxKey : ℕ} {garbage : ℕ → Byte} {req : Request} {key : List Byte}
    (h : req.ipAddr.str.length ≤ 45) :
    pluginKey ⟨true⟩ maxKey garbage req = some key ↔
      ∃ str m, storeRequest INET6_ADDRSTRLEN garbage req = some m ∧
        m.load 144 (strLenSeen req.ipAddr.str) = some str ∧
        16 + strLenSeen req.ipAddr.str ≤ maxKey ∧
        key = WEBCONTROL_MEMCACHED_DEFAULT_KEY_PREFIX ++ str := by
  -- the plugin's `str_len` begins at byte 24 of the core's `str`
  have hoff : strLenOffset INET_ADDRSTRLEN = 144 + 24 := rfl
  have hseen : ∀ m, storeRequest INET6_ADDRSTRLEN garbage req = some m →
      m.load (strLenOffset INET_ADDRSTRLEN) 8
        = some (((paddedStr req.ipAddr.str).drop 24).take 8) := by
    intro m hm
    obtain ⟨hstr, -⟩ := storeRequest_spec hm (h.trans (by decide))
    rw [load_eq_some_iff, hoff]
    refine ⟨by decide, by simp [paddedStr_length h], ?_⟩
    intro i hi
    -- `str` is still there as the core stored it
    have hbyte := hstr (24 + i) (by simp only [INET6_ADDRSTRLEN]; omega)
    rw [List.getElem?_take_of_lt hi, List.getElem?_drop, Nat.add_assoc]
    exact hbyte.symm
  rw [pluginKey, unitHaveIpv6_main, unitHaveIpv6_memcached]
  simp only [Option.bind_eq_bind, Option.bind_some, Option.bind_eq_some_iff,
    generateKey_eq_some_iff]
  constructor
  · rintro ⟨m, hm, bs, str, hbs, hstr, hmax, rfl⟩
    obtain rfl := Option.some.inj ((hseen m hm).symm.trans hbs)
    exact ⟨str, m, hm, hstr, hmax, rfl⟩
  · rintro ⟨str, m, hm, hstr, hmax, rfl⟩
    exact ⟨m, hm, _, str, hseen m hm, hstr, hmax, rfl⟩

/-- Up to 24 characters the plugin sees the length 0. -/
theorem strLenSeen_short {text : List Byte} (h : text.length ≤ 24) : strLenSeen text = 0 := by
  have hdrop : (paddedStr text).drop 24 = List.replicate 22 NUL := by
    rw [paddedStr, List.drop_append, List.drop_eq_nil_of_le h, List.nil_append,
      List.drop_replicate, INET6_ADDRSTRLEN]
    congr 1
    omega
  rw [strLenSeen, hdrop]
  rfl

/-- Beyond that, one that no text has. -/
theorem le_strLenSeen {text : List Byte} (hchars : ∀ c ∈ text, isAddressChar c = true)
    (h : 24 < text.length) : 46 ≤ strLenSeen text := by
  have hdrop : (paddedStr text).drop 24 = text[24] :: (paddedStr text).drop 25 := by
    have hlt : 24 < (paddedStr text).length := by
      rw [paddedStr, List.length_append]
      omega
    rw [List.drop_eq_getElem_cons hlt]
    congr 1
    exact List.getElem_append_left h
  have hc := le_toNat_of_isAddressChar (hchars text[24] (List.getElem_mem h))
  rw [strLenSeen, hdrop, List.take_succ_cons, ofBytes_cons]
  omega

/-- A text can be read off its padded form. -/
theorem paddedStr_injective {t t' : List Byte} (ht : ∀ c ∈ t, isAddressChar c = true)
    (ht' : ∀ c ∈ t', isAddressChar c = true) (h : paddedStr t = paddedStr t') : t = t' := by
  have htake : ∀ {s : List Byte}, (∀ c ∈ s, isAddressChar c = true) →
      (paddedStr s).takeWhile isAddressChar = s := by
    intro s hs
    rw [paddedStr, List.takeWhile_append_of_pos hs]
    have hstop : ∀ k, (List.replicate k NUL).takeWhile isAddressChar = [] := by
      intro k
      cases k <;> rfl
    rw [hstop, List.append_nil]
  rw [← htake ht, h, htake ht']

/-- A key that is long enough to hold all of `str` does so. -/
theorem paddedStr_eq_of_load {garbage : ℕ → Byte} {req : Request} {v : ℕ} {str : List Byte}
    {m : Block (requestSize INET6_ADDRSTRLEN)} (h : req.ipAddr.str.length ≤ 45)
    (hm : storeRequest INET6_ADDRSTRLEN garbage req = some m) (hv : 46 ≤ v)
    (hstr : m.load 144 v = some str) : str.take 46 = paddedStr req.ipAddr.str := by
  obtain ⟨hbytes, -⟩ := storeRequest_spec hm (h.trans (by decide))
  obtain ⟨-, hlen, hload⟩ := load_eq_some_iff.mp hstr
  apply List.ext_getElem?
  intro i
  rcases Nat.lt_or_ge i 46 with hi | hi
  · rw [List.getElem?_take_of_lt hi, hload i (by omega), hbytes i hi]
    rfl
  · rw [List.getElem?_take_eq_none hi, List.getElem?_eq_none (by rw [paddedStr_length h]; exact hi)]

/-- The worker goes on to the handlers with this request. -/
def Accepted (b : Build) (pton : InetPton) (req : Request) : Prop :=
  ∃ line, parseRequest b pton line = .valid req

theorem Accepted.text {b : Build} {pton : InetPton} {req : Request} (h : Accepted b pton req) :
    req.ipAddr.str ≠ [] ∧ (∀ c ∈ req.ipAddr.str, isAddressChar c = true) ∧
      req.ipAddr.str.length ≤ 45 := by
  obtain ⟨line, h⟩ := h
  obtain ⟨a, ha, -, hlen⟩ := parseRequest_valid h
  obtain ⟨hne, hchars⟩ := resolve_chars ha
  refine ⟨hne, hchars, hlen.trans ?_⟩
  rw [Build.width]
  split <;> decide

/-- Up to 24 characters the key is the bare prefix. -/
theorem pluginKey_short {maxKey : ℕ} {req : Request} (hmax : 16 ≤ maxKey)
    (h : req.ipAddr.str.length ≤ 24) (garbage : ℕ → Byte) :
    pluginKey ⟨true⟩ maxKey garbage req = some WEBCONTROL_MEMCACHED_DEFAULT_KEY_PREFIX := by
  have h45 : req.ipAddr.str.length ≤ 45 := h.trans (by decide)
  obtain ⟨m, hm⟩ : ∃ m, storeRequest INET6_ADDRSTRLEN garbage req = some m :=
    storeRequest_isSome garbage (h45.trans (by decide))
  have hseen := strLenSeen_short h
  refine (pluginKey_inet6 h45).mpr ⟨[], m, hm, ?_, by omega, by rw [List.append_nil]⟩
  rw [hseen, load_eq_some_iff]
  exact ⟨by decide, rfl, by simp⟩

/-- Beyond 24 characters the key, if there is one, is longer than any text's and begins
with all of `str`. -/
theorem pluginKey_long {maxKey : ℕ} {garbage : ℕ → Byte} {req : Request} {key : List Byte}
    (hchars : ∀ c ∈ req.ipAddr.str, isAddressChar c = true) (h45 : req.ipAddr.str.length ≤ 45)
    (h : 24 < req.ipAddr.str.length) (hkey : pluginKey ⟨true⟩ maxKey garbage req = some key) :
    ∃ str, key = WEBCONTROL_MEMCACHED_DEFAULT_KEY_PREFIX ++ str ∧ 46 ≤ str.length ∧
      str.take 46 = paddedStr req.ipAddr.str := by
  obtain ⟨str, m, hm, hstr, -, rfl⟩ := (pluginKey_inet6 h45).mp hkey
  have hseen := le_strLenSeen hchars h
  exact ⟨str, rfl, load_length hstr ▸ hseen, paddedStr_eq_of_load h45 hm hseen hstr⟩

/-- **With `HAVE_IPV6` the key is never the one meant**: for no request is it the prefix and
the text, and two clients with different texts share it unless one text is longer than 24
characters. -/
theorem pluginKey_never {pton : InetPton} {maxKey : ℕ} (hmax : 16 ≤ maxKey) :
    (∀ req garbage, Accepted ⟨true⟩ pton req →
      pluginKey ⟨true⟩ maxKey garbage req
        ≠ some (WEBCONTROL_MEMCACHED_DEFAULT_KEY_PREFIX ++ req.ipAddr.str)) ∧
    (∀ req₁ garbage₁ req₂ garbage₂, Accepted ⟨true⟩ pton req₁ → Accepted ⟨true⟩ pton req₂ →
      ((∀ key, pluginKey ⟨true⟩ maxKey garbage₁ req₁ = some key →
          pluginKey ⟨true⟩ maxKey garbage₂ req₂ = some key → req₁.ipAddr.str = req₂.ipAddr.str) ↔
        (req₁.ipAddr.str = req₂.ipAddr.str ∨ 24 < req₁.ipAddr.str.length ∨
          24 < req₂.ipAddr.str.length))) := by
  constructor
  · intro req garbage hreq hkey
    obtain ⟨hne, hchars, h45⟩ := hreq.text
    rcases Nat.lt_or_ge 24 req.ipAddr.str.length with hlong | hshort
    -- the plugin sees a length that no text has
    · obtain ⟨str, heq, hlen, -⟩ := pluginKey_long hchars h45 hlong hkey
      obtain rfl := List.append_cancel_left heq
      omega
    · rw [pluginKey_short hmax hshort, Option.some_inj] at hkey
      exact hne (List.append_cancel_left (hkey.symm.trans (List.append_nil _).symm))
  · intro req₁ garbage₁ req₂ garbage₂ h₁ h₂
    obtain ⟨-, hchars₁, h45₁⟩ := h₁.text
    obtain ⟨-, hchars₂, h45₂⟩ := h₂.text
    constructor
    · intro hinj
      by_contra! hnot
      obtain ⟨hne, hs₁, hs₂⟩ := hnot
      exact hne (hinj _ (pluginKey_short hmax hs₁ _) (pluginKey_short hmax hs₂ _))
    · intro hor key hkey₁ hkey₂
      -- a bare prefix is shorter than the key of a long text
      rcases Nat.lt_or_ge 24 req₁.ipAddr.str.length with hl₁ | hs₁
      · obtain ⟨str₁, rfl, hlen₁, htake₁⟩ := pluginKey_long hchars₁ h45₁ hl₁ hkey₁
        rcases Nat.lt_or_ge 24 req₂.ipAddr.str.length with hl₂ | hs₂
        · obtain ⟨str₂, heq, -, htake₂⟩ := pluginKey_long hchars₂ h45₂ hl₂ hkey₂
          obtain rfl := List.append_cancel_left heq
          exact paddedStr_injective hchars₁ hchars₂ (htake₁.symm.trans htake₂)
        · rw [pluginKey_short hmax hs₂, Option.some_inj] at hkey₂
          have hlen := congrArg List.length hkey₂
          rw [List.length_append] at hlen
          omega
      · rcases Nat.lt_or_ge 24 req₂.ipAddr.str.length with hl₂ | hs₂
        · obtain ⟨str₂, rfl, hlen₂, -⟩ := pluginKey_long hchars₂ h45₂ hl₂ hkey₂
          rw [pluginKey_short hmax hs₁, Option.some_inj] at hkey₁
          have hlen := congrArg List.length hkey₁
          rw [List.length_append] at hlen
          omega
        · exact hor.resolve_right (by omega)

/-- The request for a line with an IPv4 address. -/
def inetRequest (channel : ℕ) (text : List Byte) (sinAddr : Vector Byte 4) : Request :=
  ⟨-1, false, channel, ⟨some (.inet sinAddr), text, text.length⟩⟩

theorem accepted_one :
    Accepted ⟨true⟩ ipv4Only (inetRequest 1 (ascii "10.0.0.1") #v[10, 0, 0, 1]) :=
  ⟨ascii "1 10.0.0.1", by decide⟩

theorem accepted_two :
    Accepted ⟨true⟩ ipv4Only (inetRequest 2 (ascii "10.0.0.2") #v[10, 0, 0, 2]) :=
  ⟨ascii "2 10.0.0.2", by decide⟩

/-- Two clients with different addresses and one key. -/
theorem pluginKey_never_shared :
    pluginKey ⟨true⟩ 251 (fun _ => 0) (inetRequest 1 (ascii "10.0.0.1") #v[10, 0, 0, 1])
      ≠ some (WEBCONTROL_MEMCACHED_DEFAULT_KEY_PREFIX ++ ascii "10.0.0.1") ∧
    ¬ ∀ key,
      pluginKey ⟨true⟩ 251 (fun _ => 0) (inetRequest 1 (ascii "10.0.0.1") #v[10, 0, 0, 1])
        = some key →
      pluginKey ⟨true⟩ 251 (fun _ => 0) (inetRequest 2 (ascii "10.0.0.2") #v[10, 0, 0, 2])
        = some key → ascii "10.0.0.1" = ascii "10.0.0.2" := by
  obtain ⟨hnever, hshared⟩ := @pluginKey_never ipv4Only 251 (by decide)
  refine ⟨hnever _ _ accepted_one, ?_⟩
  intro hinj
  exact absurd ((hshared _ _ _ _ accepted_one accepted_two).mp hinj) (by decide)

/-- The key of an accepted request is not what it should be. -/
theorem pluginKey_bare :
    ¬ ∀ req garbage, Accepted ⟨true⟩ ipv4Only req →
      pluginKey ⟨true⟩ 251 garbage req
        = some (WEBCONTROL_MEMCACHED_DEFAULT_KEY_PREFIX ++ req.ipAddr.str) := by
  intro h
  have hkey := h _ (fun _ => 0) accepted_one
  rw [pluginKey_short (by decide) (by decide)] at hkey
  exact absurd hkey (by decide)

end SquidHelper
