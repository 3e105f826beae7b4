/-
SquidHelper/Address.lean

Which address the plugins are asked about: the one the client sent, as long as it is
not longer than `sscanf` will store.

`%15s` and `%45s` stop at the width without a word, and `inet_pton` sees what is left.
A longer text is no address, but its beginning may be one, and then the plugins decide
about another host.
-/
import SquidHelper.Decision

namespace SquidHelper

open CString

variable {σ ω : Type*}

/-! ### The lengths of addresses -/

/-- No textual form of an address is longer than its `ADDRSTRLEN` allows. -/
structure InetPton.FitsWidths (pton : InetPton) : Prop where
  inet : ∀ {t a}, pton.inet t = some a → t.length ≤ 15
  inet6 : ∀ {t a}, pton.inet6 t = some a → t.length ≤ 45

theorem Build.width_pos (b : Build) : 0 < b.width := by
  unfold Build.width
  split <;> decide

/-- What is longer than the width is no address. -/
theorem resolve_of_width_lt {b : Build} {pton : InetPton} (hpton : pton.FitsWidths)
    {t : List Byte} (hlong : b.width < t.length) : resolve b pton t = none := by
  have h15 : 15 ≤ b.width := by
    unfold Build.width
    split <;> decide
  have hinet : pton.inet t = none := by
    by_contra hne
    obtain ⟨a, ha⟩ := Option.ne_none_iff_exists'.mp hne
    have hle := hpton.inet ha
    omega
  -- an IPv6 address may be longer, but then the width is that of IPv6
  have hinet6 : (if b.haveIpv6 then pton.inet6 t else none) = none := by
    by_cases hb : b.haveIpv6 = true
    · rw [if_pos hb]
      by_contra hne
      obtain ⟨a, ha⟩ := Option.ne_none_iff_exists'.mp hne
      have hle := hpton.inet6 ha
      rw [Build.width, if_pos hb] at hlong
      omega
    · exact if_neg hb
  rw [resolve, hinet6, hinet]
  rfl

/-- The digits a number has used up. -/
def digitsUsed : Option ℕ → ℕ
  | none => 0
  | some v => if v < 10 then 1 else if v < 100 then 2 else 3

theorem digitsUsed_le (cur : Option ℕ) : digitsUsed cur ≤ 3 := by
  rcases cur with - | v
  · exact Nat.zero_le 3
  · simp only [digitsUsed]
    split_ifs <;> omega

/-- The numbers of a dotted quad have at most three digits each. -/
theorem dottedQuadLoop_length {cs : List Byte} {done r : List ℕ} {cur : Option ℕ}
    (h : dottedQuadLoop cs done cur = some r) :
    cs.length + digitsUsed cur + 1 + 4 * done.length ≤ 4 * r.length := by
  induction cs generalizing done cur with
  | nil =>
      -- at the end the last number is closed
      obtain ⟨v, rfl, rfl⟩ := Option.map_eq_some_iff.mp h
      have hused := digitsUsed_le (some v)
      rw [List.length_append, List.length_singleton, List.length_nil]
      omega
  | cons c cs ih =>
      rw [List.length_cons]
      unfold dottedQuadLoop at h
      split at h
      case isTrue hd =>
        have hdigit : c.toNat - 48 ≤ 9 := by
          simp only [isDigit, Bool.and_eq_true, decide_eq_true_eq, UInt8.le_iff_toNat_le] at hd
          have hle : c.toNat ≤ 57 := hd.2
          omega
        cases cur with
        | none =>
            have hih := ih h
            have hused : digitsUsed (some (c.toNat - 48)) = 1 := if_pos (by omega)
            have hnone : digitsUsed none = 0 := rfl
            omega
        | some v =>
            simp only at h
            split at h
            · cases h
            case isFalse hv =>
              have hih := ih h
              -- a fourth digit would make the number larger than 255
              have hused : digitsUsed (some v) + 1 ≤ digitsUsed (some (v * 10 + (c.toNat - 48))) := by
                simp only [digitsUsed]
                split_ifs <;> omega
              omega
      case isFalse =>
        split at h
        case isFalse => cases h
        case isTrue =>
          -- the dot makes room for the next number
          obtain ⟨v, rfl, h⟩ := Option.bind_eq_some_iff.mp h
          have hih := ih h
          have hnone : digitsUsed none = 0 := rfl
          have hused := digitsUsed_le (some v)
          rw [List.length_append, List.length_singleton] at hih
          omega

theorem ipv4Only_fitsWidths : ipv4Only.FitsWidths where
  inet := by
    intro t a h
    change dottedQuad t = some a at h
    unfold dottedQuad at h
    split at h
    case h_1 hloop =>
      have hle := dottedQuadLoop_length hloop
      have hnone : digitsUsed none = 0 := rfl
      simp only [List.length_cons, List.length_nil] at hle
      omega
    case h_2 => cases h
  inet6 := by
    intro t a h
    cases h

/-! ### The line -/

/-- The lines Squid sends: a channel, white space and a word `t`, and after more white space
anything. -/
inductive RequestLine (t : List Byte) : List Byte → Prop
  | mk {ds ws rest : List Byte} (digits : ∀ d ∈ ds, isDigit d = true) (channel : ds ≠ [])
      (spaces : ∀ c ∈ ws, isSpace c = true) (separated : ws ≠ [])
      (word : ∀ c ∈ t, isSpace c = false) (nonempty : t ≠ [])
      (tail : ∀ c, rest.head? = some c → isSpace c = true) :
      RequestLine t (ds ++ (ws ++ t ++ rest))

/-- What `sscanf` stores of it. -/
theorem RequestLine.scanRequest_ipAddr {t line : List Byte} (h : RequestLine t line) (b : Build) :
    (scanRequest b line).ipAddr = ⟨none, t.take b.width, 0⟩ := by
  obtain ⟨digits, channel, spaces, separated, word, nonempty, tail⟩ := h
  rename_i ds ws rest
  have hstop : ∀ c, (ws ++ t ++ rest).head? = some c → isDigit c = false := by
    obtain ⟨w, ws', rfl⟩ := List.exists_cons_of_ne_nil separated
    rintro c ⟨⟩
    exact isDigit_of_isSpace (spaces w List.mem_cons_self)
  simp only [scanRequest, scanSize_saturates digits channel hstop,
    scanString_token b.width_pos spaces word nonempty tail]

/-- The beginning of `t` decides. -/
theorem RequestLine.parse {t line : List Byte} (h : RequestLine t line) (b : Build)
    (pton : InetPton) :
    (∀ a, resolve b pton (t.take b.width) = some a → ∃ req, parseRequest b pton line = .valid req ∧
      req.ipAddr = ⟨some a, t.take b.width, (t.take b.width).length⟩) ∧
    (resolve b pton (t.take b.width) = none → ∃ req, parseRequest b pton line
      = .invalid req) := by
  have hip := h.scanRequest_ipAddr b
  constructor
  · intro a ha
    refine ⟨{ scanRequest b line with
      ipAddr := ⟨some a, t.take b.width, (t.take b.width).length⟩ }, ?_, rfl⟩
    simp only [parseRequest, hip, ha]
  · intro hnone
    refine ⟨scanRequest b line, ?_⟩
    simp only [parseRequest, hip, hnone]

/-! ### What the plugins are told -/

/-- The answer to a line without an address. -/
def addressExpected (line : List Byte) : List Byte :=
  sendResponse (lineChannel line) (-1) (some (ascii "Valid IP address expected"))

/-- The worker, given `line` with the word `t`, passes on the address that `t` is, and if it
is none, answers `ERR`. -/
structure PassesExactly (c : Core σ ω) (o : σ) (world : ω) (t line : List Byte) : Prop where
  passes : ∀ ip, (∃ req, requestStep c line o world .parse = ⟨some (.handle req 0), world, []⟩ ∧
      req.ipAddr = ip) ↔
    ∃ a, resolve c.build c.inetPton t = some a ∧ ip = ⟨some a, t, t.length⟩
  refuses : resolve c.build c.inetPton t = none →
    ∃ req, requestStep c line o world .parse = ⟨some (.invalid req), world, []⟩ ∧
      ∀ o' world', requestStep c line o' world' (.invalid req)
        = ⟨none, world', [.responded (addressExpected line)]⟩
  /-- In every run of the helper, every call of a handler has that address, and without one
  there is no call and no other answer. -/
  runs : ∀ {n : ℕ} {reads : List StdinRead} {start : ω} {as : List (Action n σ)} {s : State n ω},
    (helper c n).exec (State.init n reads start) as = some s → ∀ job : Job, job.line = line →
      (∀ call ∈ calls c job (State.init n reads start) as,
        ∃ a, resolve c.build c.inetPton t = some a ∧
          call.request.ipAddr = ⟨some a, t, t.length⟩) ∧
      (resolve c.build c.inetPton t = none → calls c job (State.init n reads start) as = [] ∧
        (jobEvents job s.log = [] ∨ jobEvents job s.log = [.responded (addressExpected line)]))

section Line

variable {c : Core σ ω} {line : List Byte} {es : List RequestEvent} {cs : List Call}
  {next : Option RequestPc} {req : Request}

/-- A line is not both accepted and refused. -/
theorem Request.ReadFrom.not_invalid {b : Build} {pton : InetPton} {req req' : Request}
    (h : req'.ReadFrom b pton line) : parseRequest b pton line ≠ .invalid req := by
  obtain ⟨req₀, hparse, -⟩ := h
  rw [hparse]
  intro heq
  cases heq

/-- What is known of a line without an address at any moment. -/
theorem Shape.invalid (h : Shape c line es cs next)
    (hinvalid : parseRequest c.build c.inetPton line = .invalid req) :
    cs = [] ∧ (es = [] ∨ es = [.responded (addressExpected line)]) := by
  cases next with
  | none =>
      rcases h with ⟨req', -, hcs, hes⟩ | ⟨req', hsettled, -⟩
      · exact ⟨hcs, .inr hes⟩
      · exact absurd hinvalid hsettled.read.not_invalid
  | some pc =>
      cases pc with
      | parse => exact ⟨h.2, .inl h.1⟩
      | invalid req' => exact ⟨h.2.2, .inl h.2.1⟩
      | handle req' i => exact absurd hinvalid h.1.read.not_invalid
      | respond req' => exact absurd hinvalid h.1.read.not_invalid
      | post req' i => exact absurd hinvalid h.1.read.not_invalid

/-- A word that survives `sscanf`, or one whose beginning is no address, is treated as it
should be. -/
theorem passesExactly_of_resolve_take {t : List Byte} (hline : RequestLine t line)
    (hwhole : ∀ a, resolve c.build c.inetPton (t.take c.build.width) = some a →
      t.take c.build.width = t)
    (hbeginning : resolve c.build c.inetPton (t.take c.build.width) = none →
      resolve c.build c.inetPton t = none) (o : σ) (world : ω) :
    PassesExactly c o world t line := by
  obtain ⟨haccept, hreject⟩ := hline.parse c.build c.inetPton
  cases hres : resolve c.build c.inetPton (t.take c.build.width) with
  | some a =>
      -- the stored word is an address: by `hwhole` it is all of `t`
      obtain ⟨req, hparse, hip⟩ := haccept a hres
      have htake := hwhole a hres
      rw [htake] at hres hip
      refine ⟨fun ip => ?_, fun hnone => ?_, fun {n reads start as s} hexec job hjob => ?_⟩
      · simp only [requestStep, hparse, RequestStep.mk.injEq, Option.some.injEq,
          RequestPc.handle.injEq, and_true, hres, exists_eq_left', hip]
        exact eq_comm
      · rw [hres] at hnone
        cases hnone
      · subst hjob
        refine ⟨fun call hcall => ⟨a, hres, ?_⟩, fun hnone => ?_⟩
        · obtain ⟨⟨next, hshape⟩, -⟩ := shape_of_exec hexec job
          obtain ⟨-, hpassed, -⟩ := hshape.valid hparse
          rw [hpassed call hcall, hip]
        · rw [hres] at hnone
          cases hnone
  | none =>
      obtain ⟨req, hparse⟩ := hreject hres
      -- the stored word is none, and by `hbeginning` neither is `t`
      have hnone := hbeginning hres
      refine ⟨fun ip => ?_, fun _ => ?_, fun {n reads start as s} hexec job hjob => ?_⟩
      · simp [requestStep, hparse, hnone]
      · refine ⟨req, by simp only [requestStep, hparse], ?_⟩
        intro o' world'
        rw [requestStep, parseRequest_channel (.inr hparse), addressExpected]
      · subst hjob
        obtain ⟨⟨next, hshape⟩, -⟩ := shape_of_exec hexec job
        obtain ⟨hcalls, hevents⟩ := hshape.invalid hparse
        refine ⟨fun call hcall => ?_, fun _ => ⟨hcalls, hevents⟩⟩
        rw [hcalls] at hcall
        cases hcall

end Line

/-- **The plugins are asked about the address the client sent if and only if its text is not
longer than `sscanf` stores, or what is stored of it is no address.** -/
theorem passesExactly_iff {c : Core σ ω} (hpton : c.inetPton.FitsWidths) {t line : List Byte}
    (hline : RequestLine t line) (o : σ) (world : ω) :
    PassesExactly c o world t line ↔
      t.length ≤ c.build.width ∨ resolve c.build c.inetPton (t.take c.build.width) = none := by
  constructor
  · intro h
    rw [or_iff_not_imp_left, Nat.not_le]
    intro hlong
    by_contra hne
    obtain ⟨a, ha⟩ := Option.ne_none_iff_exists'.mp hne
    obtain ⟨req, hparse, hip⟩ := (hline.parse c.build c.inetPton).1 a ha
    -- the beginning is passed on, so all of `t` would have to be an address
    obtain ⟨a', ha', -⟩ := (h.passes _).mp ⟨req, by simp only [requestStep, hparse], hip⟩
    rw [resolve_of_width_lt hpton hlong] at ha'
    cases ha'
  · intro h
    refine passesExactly_of_resolve_take hline (fun a ha => ?_) (fun hnone => ?_) o world
    · rcases h with hshort | hnone
      · exact List.take_of_length_le hshort
      · rw [hnone] at ha
        cases ha
    · rcases h with hshort | -
      · rwa [List.take_of_length_le hshort] at hnone
      · rcases Nat.lt_or_ge c.build.width t.length with hlong | hshort
        · exact resolve_of_width_lt hpton hlong
        · rwa [List.take_of_length_le hshort] at hnone

/-- A helper without IPv6, with a plugin that allows every host. -/
def ipv4Core : Core Unit Unit where
  build := ⟨false⟩
  inetPton := ipv4Only
  plugins := [{ handleRequest := some fun _ world _ => ⟨.allow, false, world⟩ }]
  denyByDefault := true

/-- A dotted quad of ordinary length. -/
theorem passesExactly_quad :
    PassesExactly ipv4Core () () (ascii "192.168.100.200") (ascii "7 192.168.100.200 -") := by
  have hline : RequestLine (ascii "192.168.100.200") (ascii "7 192.168.100.200 -") :=
    @RequestLine.mk _ (ascii "7") [SP] (ascii " -") (List.all_eq_true.mp (by decide)) (by decide)
      (List.all_eq_true.mp (by decide)) (by decide) (by simp [ascii, isSpace]) (by decide)
      (by rintro c ⟨⟩; rfl)
  exact (passesExactly_iff ipv4Only_fitsWidths hline () ()).mpr (.inl (by decide))

/-- The last digit is lost, and the plugin is asked about another host, which it allows. -/
theorem not_passesExactly_cut :
    RequestLine (ascii "111.111.111.1119") (ascii "7 111.111.111.1119") ∧
      ¬ PassesExactly ipv4Core () () (ascii "111.111.111.1119") (ascii "7 111.111.111.1119") := by
  refine ⟨@RequestLine.mk _ (ascii "7") [SP] [] (List.all_eq_true.mp (by decide)) (by decide)
    (List.all_eq_true.mp (by decide)) (by decide) (by simp [ascii, isSpace]) (by decide)
    (by rintro c ⟨⟩), fun h => ?_⟩
  have hcut : ∃ req, requestStep ipv4Core (ascii "7 111.111.111.1119") () () .parse
        = ⟨some (.handle req 0), (), []⟩ ∧
      req.ipAddr.str = ascii "111.111.111.111" := ⟨_, rfl, by decide⟩
  obtain ⟨req, hstep, -⟩ := hcut
  obtain ⟨a, ha, -⟩ := (h.passes req.ipAddr).mp ⟨req, hstep, rfl⟩
  have hnone : resolve ipv4Core.build ipv4Core.inetPton (ascii "111.111.111.1119") = none := by
    decide
  rw [hnone] at ha
  cases ha

end SquidHelper
