/-
SquidHelper/Servers.lean

The servers in `src/plugins/mod_memcached/webcontrol_memcached.c`: each string of the
configuration is cut at its colons into a host and a port.

libmemcached's list of servers is the list of the arguments that
`memcached_server_list_append` was called with.
-/
import SquidHelper.Config
import SquidHelper.Lib.Tokens

namespace SquidHelper

namespace Servers

open CString Config

/-- `':'`. -/
abbrev COLON : Byte := 58

/-- The only delimiter. -/
def isColon (c : Byte) : Bool := c == COLON

/-- The arguments of `memcached_server_list_append`; no host is a null pointer. -/
structure Server where
  host : Option (List Byte)
  port : ℕ
  deriving DecidableEq, Repr

/-- The body of the loop: the third token of a string and those behind it are not asked for. -/
def serverOf (server : Argument) : Server :=
  match strtokR isColon server.val with
  | none => ⟨none, 0⟩
  | some (host, rest) =>
      match strtokR isColon rest with
      | none => ⟨some host, 0⟩
      | some (port, _) =>
          match scanShort port with
          | none => ⟨some host, 0⟩
          | some (portNumeric, _) => ⟨some host, portNumeric⟩

/-- `webcontrol_memcached_processconfig`, for the strings of the section, if there is one. -/
def processconfig : Option (List Argument) → List Server
  | none => []
  | some servers => servers.foldl (fun pcServers server => pcServers ++ [serverOf server]) []

/-! ### What is configured -/

/-- A server, and the port if it is not the usual one. -/
structure Entry where
  host : List Byte
  port : Option ℕ
  host_ne_nil : host ≠ []
  nul_host : NUL ∉ host

/-- `host` or `host:port`. -/
def Entry.chars (e : Entry) : List Byte :=
  match e.port with
  | none => e.host
  | some port => e.host ++ COLON :: decimal port

theorem not_mem_decimal {c : Byte} (hc : isDigit c = false) (n : ℕ) : c ∉ decimal n := by
  intro hmem
  rw [isDigit_of_mem_decimal hmem] at hc
  cases hc

/-- The entry as it is in the configuration file. -/
def Entry.text (e : Entry) : Argument :=
  ⟨e.chars, by
    unfold Entry.chars
    cases e.port with
    | none => exact e.nul_host
    | some port =>
        have hport := not_mem_decimal (show isDigit NUL = false by decide) port
        have hcolon : NUL ≠ COLON := by decide
        simp only [List.mem_append, List.mem_cons, e.nul_host, hport, hcolon, or_self,
          not_false_eq_true]⟩

/-- The server that is meant. -/
def Entry.server (e : Entry) : Server := ⟨some e.host, e.port.getD 0⟩

/-! ### What is read -/

theorem processconfig_eq_map (servers : List Argument) :
    processconfig (some servers) = servers.map serverOf := by
  rw [processconfig, List.foldl_append_eq_append, List.nil_append, ← List.flatMap_def,
    ← List.map_eq_flatMap]

theorem isColon_eq_false_iff {c : Byte} : isColon c = false ↔ c ≠ COLON := by
  rw [isColon, beq_eq_false_iff_ne]

/-- A token between colons is not empty and has none in it. -/
theorem token_wellFormed {s tok rest : List Byte} (h : strtokR isColon s = some (tok, rest)) :
    tok ≠ [] ∧ COLON ∉ tok := by
  obtain ⟨hne, htok, -⟩ := strtokR_cases h
  exact ⟨hne, fun hmem => isColon_eq_false_iff.mp (htok COLON hmem) rfl⟩

/-- **No string of the configuration gives a host with a colon in it**, such as the text of an
IPv6 address, or a port that needs more than 16 bits. -/
theorem serverOf_wellFormed (server : Argument) :
    (serverOf server).port < shortMod ∧
      ∀ host ∈ (serverOf server).host, host ≠ [] ∧ COLON ∉ host := by
  have hzero : 0 < shortMod := by decide
  unfold serverOf
  split
  case h_1 => exact ⟨hzero, fun host hhost => by cases hhost⟩
  case h_2 host rest hhost =>
    have htoken : ∀ host' ∈ some host, host' ≠ [] ∧ COLON ∉ host' := by
      intro host' hmem
      obtain rfl := Option.some.inj hmem
      exact token_wellFormed hhost
    split
    case h_1 => exact ⟨hzero, htoken⟩
    case h_2 port _ hport =>
      split
      case h_1 => exact ⟨hzero, htoken⟩
      case h_2 portNumeric _ hscan => exact ⟨scanShort_lt hscan, htoken⟩

/-- Without a colon in the host, an entry is read as it is meant. -/
theorem serverOf_text {e : Entry} (hhost : COLON ∉ e.host)
    (hport : ∀ port ∈ e.port, port < shortMod) : serverOf e.text = e.server := by
  have hfield : ∀ c ∈ e.host, isColon c = false := fun c hc =>
    isColon_eq_false_iff.mpr fun heq => hhost (heq ▸ hc)
  have hnone : ∀ c ∈ ([] : List Byte), isColon c = true := by simp
  obtain ⟨host, port, hne, hnul⟩ := e
  cases port with
  | none =>
      have hlast := strtokR_last [] hnone hfield hne
      have hend := strtokR_eq_none hnone
      rw [List.nil_append] at hlast
      simp only [serverOf, Entry.text, Entry.chars, hlast, hend, Entry.server, Option.getD_none]
  | some port =>
      have hdecimal : ∀ c ∈ decimal port, isColon c = false := fun c hc =>
        isColon_eq_false_iff.mpr fun heq =>
          not_mem_decimal (show isDigit COLON = false by decide) port (heq ▸ hc)
      have hcolon : isColon COLON = true := by decide
      have htoken : strtokR isColon (host ++ COLON :: decimal port) = some (host, decimal port) :=
        strtokR_token [] hnone hfield hne hcolon
      have hlast := strtokR_last [] hnone hdecimal (decimal_ne_nil port)
      rw [List.nil_append] at hlast
      simp only [serverOf, Entry.text, Entry.chars, htoken, hlast,
        scanShort_decimal (hport port rfl), Entry.server, Option.getD_some]

/-- **The servers that are configured are those that are meant**, in the same order, if and
only if no host has a colon in it and no port more than 16 bits; no other hosts and ports are
made of any strings. -/
theorem processconfig_iff :
    (∀ entries : List Entry,
      processconfig (some (entries.map Entry.text)) = entries.map Entry.server ↔
        ∀ e ∈ entries, COLON ∉ e.host ∧ ∀ port ∈ e.port, port < shortMod) ∧
    ∀ servers, ∀ server ∈ processconfig (some servers),
      server.port < shortMod ∧ ∀ host ∈ server.host, host ≠ [] ∧ COLON ∉ host := by
  constructor
  · intro entries
    rw [processconfig_eq_map, List.map_map, List.map_inj_left]
    constructor
    · intro heq e he
      have hread := serverOf_wellFormed e.text
      have hmeant : serverOf e.text = e.server := heq e he
      rw [hmeant] at hread
      obtain ⟨hport, hhost⟩ := hread
      refine ⟨(hhost e.host rfl).2, fun port hmem => ?_⟩
      rwa [Entry.server, show e.port = some port from hmem, Option.getD_some] at hport
    · intro hall e he
      exact serverOf_text (hall e he).1 (hall e he).2
  · intro servers server hserver
    rw [processconfig_eq_map] at hserver
    obtain ⟨text, -, rfl⟩ := List.mem_map.mp hserver
    exact serverOf_wellFormed text

/-- The address of a server in brackets. -/
example : serverOf ⟨ascii "[::1]:11211", by decide⟩ = ⟨some (ascii "["), 1⟩ := by decide

end Servers

end SquidHelper
