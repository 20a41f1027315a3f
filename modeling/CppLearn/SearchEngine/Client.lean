import CppLearn.Foundation.InternetAddress
import CppLearn.SearchEngine.TaskRequest

/-!
# The command line of the search program

`parse_args` turns the options of the command line into a request: each option sets one member, the
mode and the members it needs are checked afterwards, and a limit of zero becomes one gigabyte.
`parseArgs_addresses` says what the addresses and the filters of the request are when the options
give two addresses in dotted decimal form and neither ports nor a protocol.
-/

set_option autoImplicit false
set_option relaxedAutoImplicit false

namespace CppLearn.SearchEngine.Client

open Foundation.ByteOrder Foundation.DecimalText Foundation.InternetAddress
open TaskRequest

/-- The options that `getopt_long` returns, an unknown one included. -/
inductive Opt
  | help
  | mode
  | uuid
  | stime
  | etime
  | sip
  | dip
  | sport
  | dport
  | proto
  | limit
  | file
  | unknown
  deriving DecidableEq

/-- The address of a query, as `ntohl` of what `inet_aton` stores. -/
def queryAddress (optarg : Text) : Option (BitVec 64) :=
  (inetAton optarg).map fun bytes ↦ (ntohl (wordOfBytes 32 bytes)).setWidth 64

/-- One turn of the option loop of `parse_args`, which fails where it returns false. -/
def parseOption (request : TaskInfo) : Opt × Text → Option TaskInfo
  | (.help, _) => none
  | (.mode, optarg) => some { request with mode := optarg }
  | (.uuid, optarg) => some { request with uuid := optarg }
  | (.stime, optarg) => some { request with stime := optarg }
  | (.etime, optarg) => some { request with etime := optarg }
  | (.sip, optarg) => (queryAddress optarg).map fun sip ↦ { request with sip := sip }
  | (.dip, optarg) => (queryAddress optarg).map fun dip ↦ { request with dip := dip }
  | (.sport, optarg) => some { request with sport := (atoi optarg).signExtend 64 }
  | (.dport, optarg) => some { request with dport := (atoi optarg).signExtend 64 }
  | (.proto, optarg) => some { request with proto := (atoi optarg).signExtend 64 }
  | (.limit, optarg) => some { request with limit := (atoi optarg).signExtend 64 * 1024 * 1024 }
  | (.file, optarg) => some { request with fileName := optarg }
  | (.unknown, _) => none

/-- The modes, as they are given on the command line. -/
def statusMode : Text := "status".toList

@[inherit_doc statusMode] def searchMode : Text := "search".toList

@[inherit_doc statusMode] def cancelMode : Text := "cancel".toList

@[inherit_doc statusMode] def daemonMode : Text := "daemon".toList

/-- `parse_args` on the options in the order of the command line. Without arguments it fails at
once, as it does for want of a mode. -/
def parseArgs (options : List (Opt × Text)) : Option TaskInfo := do
  let request ← options.foldlM parseOption taskInfo
  if request.mode ∉ [statusMode, searchMode, cancelMode, daemonMode] then none
  else if request.mode = statusMode ∧ request.uuid = [] then none
  else if request.mode = cancelMode ∧ request.uuid = [] then none
  else if request.mode = searchMode ∧ (request.stime = [] ∨ request.etime = []) then none
  else if request.limit = 0 then some { request with limit := 1024 * 1024 * 1024 }
  else some request

/-- The check of the members leaves them as they are, but for a limit of zero. -/
theorem parseArgs_members {options : List (Opt × Text)} {request : TaskInfo}
    (hparse : parseArgs options = some request) :
    ∃ parsed, options.foldlM parseOption taskInfo = some parsed ∧
      request = { parsed with limit := request.limit } := by
  obtain ⟨parsed, hparsed, hchecks⟩ := Option.bind_eq_some_iff.mp hparse
  refine ⟨parsed, hparsed, ?_⟩
  split_ifs at hchecks <;> cases hchecks <;> rfl

/-- A property that the options of a command line keep holds after them. -/
theorem foldlM_parseOption_of_keeps (property : TaskInfo → Prop) {options : List (Opt × Text)}
    {request last : TaskInfo} (hparse : options.foldlM parseOption request = some last)
    (hkeeps : ∀ option ∈ options, ∀ request next, property request →
      parseOption request option = some next → property next)
    (hrequest : property request) : property last := by
  induction options generalizing request with
  | nil =>
    cases hparse
    exact hrequest
  | cons option options ih =>
    obtain ⟨next, hnext, hrest⟩ := Option.bind_eq_some_iff.mp hparse
    exact ih hrest (fun other hother ↦ hkeeps other (List.mem_cons_of_mem _ hother))
      (hkeeps option (List.mem_cons_self ..) request next hrequest hnext)

/-- A property that one of the options establishes and all of them keep holds after them. -/
theorem foldlM_parseOption_of_sets (property : TaskInfo → Prop) {options : List (Opt × Text)}
    {request last : TaskInfo} (hparse : options.foldlM parseOption request = some last)
    (hkeeps : ∀ option ∈ options, ∀ request next, property request →
      parseOption request option = some next → property next)
    {option : Opt × Text} (hmem : option ∈ options)
    (hsets : ∀ request next, parseOption request option = some next → property next) :
    property last := by
  obtain ⟨before, after, rfl⟩ := List.append_of_mem hmem
  rw [List.foldlM_append] at hparse
  obtain ⟨middle, -, hafter⟩ := Option.bind_eq_some_iff.mp hparse
  obtain ⟨next, hnext, hrest⟩ := Option.bind_eq_some_iff.mp hafter
  refine foldlM_parseOption_of_keeps property hrest (fun other hother ↦ hkeeps other ?_)
    (hsets middle next hnext)
  exact List.mem_append_right _ (List.mem_cons_of_mem _ hother)

/-- The options of a query for two addresses: each of the two address options is given, never with
another value, and there is no port and no protocol among the options. -/
structure AddressQuery (options : List (Opt × Text)) (sip dip : Text) : Prop where
  no_filter : ∀ option ∈ options, option.1 ∉ [Opt.sport, .dport, .proto]
  sip_mem : (Opt.sip, sip) ∈ options
  dip_mem : (Opt.dip, dip) ∈ options
  sip_eq : ∀ optarg, (Opt.sip, optarg) ∈ options → optarg = sip
  dip_eq : ∀ optarg, (Opt.dip, optarg) ∈ options → optarg = dip

/-- What one option does to the addresses and the filters. -/
theorem parseOption_members {request next : TaskInfo} {option : Opt × Text}
    (hparse : parseOption request option = some next) :
    (if option.1 = .sip then queryAddress option.2 = some next.sip else next.sip = request.sip) ∧
      (if option.1 = .dip then queryAddress option.2 = some next.dip
        else next.dip = request.dip) ∧
      (option.1 ∉ [Opt.sport, .dport, .proto] →
        next.sport = request.sport ∧ next.dport = request.dport ∧ next.proto = request.proto) := by
  rcases option with ⟨name, optarg⟩
  cases name with
  | help => cases hparse
  | unknown => cases hparse
  | sip =>
    obtain ⟨sip, hsip, rfl⟩ := Option.map_eq_some_iff.mp hparse
    simp [hsip]
  | dip =>
    obtain ⟨dip, hdip, rfl⟩ := Option.map_eq_some_iff.mp hparse
    simp [hdip]
  | _ =>
    cases hparse
    simp

/-- The options of a query for two addresses leave the addresses in host order, and no filter. -/
theorem foldlM_parseOption_addresses {options : List (Opt × Text)} {sip dip : Text}
    (hquery : AddressQuery options sip dip) {parsed : TaskInfo}
    (hparsed : options.foldlM parseOption taskInfo = some parsed) :
    queryAddress sip = some parsed.sip ∧ queryAddress dip = some parsed.dip ∧
      parsed.sport = 0 ∧ parsed.dport = 0 ∧ parsed.proto = 0 := by
  refine ⟨?_, ?_, ?_⟩
  · refine foldlM_parseOption_of_sets (fun request ↦ queryAddress sip = some request.sip) hparsed
      ?_ hquery.sip_mem fun request next hnext ↦ (parseOption_members hnext).1
    intro option hoption request next hrequest hnext
    have hmember := (parseOption_members hnext).1
    split_ifs at hmember with hsip
    · rwa [hquery.sip_eq option.2 (hsip ▸ hoption)] at hmember
    · rw [hmember, hrequest]
  · refine foldlM_parseOption_of_sets (fun request ↦ queryAddress dip = some request.dip) hparsed
      ?_ hquery.dip_mem fun request next hnext ↦ (parseOption_members hnext).2.1
    intro option hoption request next hrequest hnext
    have hmember := (parseOption_members hnext).2.1
    split_ifs at hmember with hdip
    · rwa [hquery.dip_eq option.2 (hdip ▸ hoption)] at hmember
    · rw [hmember, hrequest]
  · refine foldlM_parseOption_of_keeps
      (fun request ↦ request.sport = 0 ∧ request.dport = 0 ∧ request.proto = 0) hparsed ?_
      ⟨rfl, rfl, rfl⟩
    rintro option hoption request next ⟨hsport, hdport, hproto⟩ hnext
    obtain ⟨hsame, hsame', hsame''⟩ :=
      (parseOption_members hnext).2.2 (hquery.no_filter option hoption)
    exact ⟨hsame.trans hsport, hsame'.trans hdport, hsame''.trans hproto⟩

/-- The same of the request that `parse_args` returns. -/
theorem parseArgs_addresses {options : List (Opt × Text)} {sip dip : Text}
    (hquery : AddressQuery options sip dip) {request : TaskInfo}
    (hparse : parseArgs options = some request) :
    queryAddress sip = some request.sip ∧ queryAddress dip = some request.dip ∧
      request.sport = 0 ∧ request.dport = 0 ∧ request.proto = 0 := by
  obtain ⟨parsed, hparsed, hrequest⟩ := parseArgs_members hparse
  have haddresses := foldlM_parseOption_addresses hquery hparsed
  rw [hrequest]
  exact haddresses

end CppLearn.SearchEngine.Client
