import Dissection.Proofs.Scan.Layout

/-!
# Truncated captures

A capture that keeps only the first bytes of a packet loses headers at the end of the chain and
changes none of the others. A built-in length rule that has found a length keeps to it, whatever
bytes follow. The edges judge bytes of the header, which are all there, but for the one to HTTP: it
looks at the bytes behind the header, and the first of them decide.
-/

namespace Dissection

namespace LengthRule

/-- What the rule proposes stays the same when more bytes follow. -/
def Settled (rule : LengthRule) : Prop :=
  ∀ tail more proposal,
    rule.propose tail = .ok proposal → rule.propose (tail ++ more) = .ok proposal

theorem settled_fixed (length : Nat) : (fixed length).Settled := by
  intro tail more proposal h
  rw [propose] at h ⊢
  split at h
  · cases h
  · next hfit =>
    rw [if_neg (by rw [List.length_append]; omega)]
    exact h

theorem settled_fromField (source : BitField) (scale bias minimum : Nat) :
    (fromField source scale bias minimum).Settled := by
  intro tail more proposal h
  rw [propose] at h ⊢
  split at h
  · cases h
  · next hfit =>
    rw [if_neg (by rw [List.length_append]; omega)]
    split at h
    · cases h
    · next number hread =>
      rw [BitField.read_append (BitField.endByte_le_of_read hread), hread]
      exact h

theorem settled_measured {measure : Bytes → Except Shortfall Nat}
    (hmeasure : ∀ tail more length,
      measure tail = .ok length → measure (tail ++ more) = .ok length) :
    (measured measure).Settled := by
  intro tail more ⟨length, minimum⟩ h
  rw [propose_measured_iff] at h ⊢
  exact ⟨hmeasure tail more length h.1, h.2⟩

theorem Settled.resolve {rule : LengthRule} (h : rule.Settled) {protocol : ProtocolId}
    {front : Bytes} {offset length : Nat} (more : Bytes)
    (hlength : rule.resolve protocol front offset = .ok length) :
    rule.resolve protocol (front ++ more) offset = .ok length := by
  have hbounds := resolve_bounds hlength
  have htail : (front ++ more).drop offset = front.drop offset ++ more :=
    List.drop_append_of_le_length (by omega)
  rw [resolve_eq_ok_iff] at hlength ⊢
  obtain ⟨minimum, hproposed, hminimum, hfit⟩ := hlength
  refine ⟨minimum, ?_, hminimum, ?_⟩
  · rw [htail]
    exact h _ more _ hproposed
  · rw [htail, List.length_append]
    exact Nat.le_add_right_of_le hfit

end LengthRule

theorem Arp.measure_append {tail : Bytes} {length : Nat} (more : Bytes)
    (h : measure tail = .ok length) : measure (tail ++ more) = .ok length := by
  obtain ⟨hardware, protocol, hhardware, hprotocol, rfl⟩ := BuiltIn.measure_bounds h
  have hlengths : 5 < tail.length := (List.getElem?_eq_some_iff.1 hprotocol).1
  rw [measure, List.getElem?_append_left (by omega), List.getElem?_append_left hlengths, hhardware,
    hprotocol]

namespace Http

/-- Text of at least the length of `start` begins with it whatever follows. -/
theorem isPrefixOf_append {start bytes : Bytes} (h : start.length ≤ bytes.length) (more : Bytes) :
    start.isPrefixOf (bytes ++ more) = start.isPrefixOf bytes := by
  rw [Bool.eq_iff_iff, List.isPrefixOf_iff_prefix, List.isPrefixOf_iff_prefix]
  constructor
  · intro hstart
    exact List.prefix_of_prefix_length_le hstart (List.prefix_append bytes more) h
  · intro hstart
    exact hstart.trans (List.prefix_append bytes more)

theorem headLength?_bounds {tail : Bytes} {length : Nat} (h : headLength? tail = some length) :
    headEnd.length ≤ length ∧ length ≤ tail.length := by
  induction tail generalizing length with
  | nil => cases h
  | cons first rest ih =>
    rw [headLength?] at h
    split at h
    · next hstart =>
      cases h
      exact ⟨Nat.le_refl _, (List.isPrefixOf_iff_prefix.1 hstart).length_le⟩
    · obtain ⟨found, hfound, rfl⟩ := Option.map_eq_some_iff.1 h
      have hlater := ih hfound
      rw [List.length_cons]
      omega

/-- The first blank line stays the first one. -/
theorem headLength?_append {tail : Bytes} {length : Nat} (more : Bytes)
    (h : headLength? tail = some length) : headLength? (tail ++ more) = some length := by
  induction tail generalizing length with
  | nil => cases h
  | cons first rest ih =>
    have hbounds := headLength?_bounds h
    have hstart := isPrefixOf_append (Nat.le_trans hbounds.1 hbounds.2) more
    rw [List.cons_append] at hstart ⊢
    rw [headLength?] at h ⊢
    rw [hstart]
    split at h
    · next hend => rw [if_pos hend]; exact h
    · next hend =>
      obtain ⟨found, hfound, rfl⟩ := Option.map_eq_some_iff.1 h
      rw [if_neg hend, ih hfound]
      rfl

theorem measure_append {tail : Bytes} {length : Nat} (more : Bytes)
    (h : measure tail = .ok length) : measure (tail ++ more) = .ok length := by
  rw [measure] at h ⊢
  split at h
  · next found hfound =>
    rw [headLength?_append more hfound]
    exact h
  · cases h

theorem looksLikeMessage_append {payload : Bytes} (more : Bytes)
    (h : looksLikeMessage payload = true) : looksLikeMessage (payload ++ more) = true := by
  rw [looksLikeMessage, List.any_eq_true] at h ⊢
  obtain ⟨beginning, hbeginning, hstart⟩ := h
  refine ⟨beginning, hbeginning, ?_⟩
  rw [List.isPrefixOf_iff_prefix] at hstart ⊢
  exact hstart.trans (List.prefix_append payload more)

end Http

theorem BuiltIn.settled_lengthRule (protocol : BuiltIn) : protocol.lengthRule.Settled := by
  cases protocol with
  | ethernet | vlan | ipv6 | ipv6Fragment | icmp | udp => exact LengthRule.settled_fixed _
  | ipv4 | tcp => exact LengthRule.settled_fromField _ _ _ _
  | arp => exact LengthRule.settled_measured (fun _ more _ => Arp.measure_append more)
  | http => exact LengthRule.settled_measured (fun _ more _ => Http.measure_append more)

namespace FrozenRegistry

variable {front : Bytes} {earlier : List HeaderRecord} {known : BuiltIn} {offset : Nat}
  {current : HeaderRecord}

theorem Places.append (h : builtIn.Places front earlier known.id offset current) (more : Bytes) :
    builtIn.Places (front ++ more) earlier known.id offset current := by
  obtain ⟨hlength, hcurrent⟩ := resolve_of_places h
  rw [hcurrent]
  exact places_builtIn known (known.settled_lengthRule.resolve more hlength)

theorem field_append (earlier : List HeaderRecord) (hstop : current.stop ≤ front.length)
    (more : Bytes) (field : BitField) :
    BindingContext.field ⟨front ++ more, earlier, current⟩ field =
      BindingContext.field ⟨front, earlier, current⟩ field := by
  unfold HeaderRecord.stop at hstop
  have hbytes : ((front ++ more).drop current.offset).take current.length =
      (front.drop current.offset).take current.length := by
    rw [List.drop_append_of_le_length (by omega),
      List.take_append_of_le_length (by rw [List.length_drop]; omega)]
  exact congrArg field.read hbytes

/-- Detection that has seen a message in the first bytes sees it in all of them. -/
theorem detect_append (h : builtIn.Places front earlier BuiltIn.tcp.id offset current)
    (more : Bytes) (hdetect : Http.detect ⟨front, earlier, current⟩ = .ok true) :
    Http.detect ⟨front ++ more, earlier, current⟩ = .ok true := by
  have hfields := h.field_of_dispatch
  obtain ⟨source, hsource⟩ := hfields Ports.source (by decide)
  obtain ⟨destination, hdestination⟩ := hfields Ports.destination (by decide)
  have hsame := field_append earlier h.inside.2 more
  have hpayload : BindingContext.payload ⟨front ++ more, earlier, current⟩ =
      BindingContext.payload ⟨front, earlier, current⟩ ++ more :=
    List.drop_append_of_le_length h.inside.2
  rw [Http.detect_eq hsource hdestination, Except.ok.injEq, Bool.and_eq_true] at hdetect
  rw [Http.detect_eq ((hsame _).trans hsource) ((hsame _).trans hdestination), hpayload,
    hdetect.1, Http.looksLikeMessage_append more hdetect.2]
  rfl

/-- The edge that wins with the first bytes wins with all of them. -/
theorem wins_append {winner : Binding} (h : builtIn.Places front earlier known.id offset current)
    (more : Bytes)
    (hwins : BindingContext.Wins ⟨front, earlier, current⟩ (builtIn.bindingsFrom known.id) winner) :
    BindingContext.Wins ⟨front ++ more, earlier, current⟩ (builtIn.bindingsFrom known.id)
      winner := by
  by_cases hknown : known = .tcp
  · subst hknown
    have honly := hwins.tried
    rw [bindingsFrom_tcp, List.mem_singleton] at honly
    subst honly
    refine ⟨hwins.tried, detect_append h more hwins.holds, ?_⟩
    intro edge hedge hbefore
    rw [bindingsFrom_tcp, List.mem_singleton] at hedge
    subst hedge
    exact absurd hbefore (Binding.Before.irrefl _)
  · refine hwins.congr fun edge hedge => ?_
    exact (judges_edge hknown edge hedge).congr _ _
      (fun field _ => field_append earlier h.inside.2 more field)

/-- What the rules commit in the first bytes is what a walk over all of them begins with. -/
theorem Follows.headers_append {limit : Nat} {protocol : ProtocolId} {outcome : Walk}
    (h : builtIn.Follows front limit earlier protocol offset outcome)
    (hprotocol : ∃ known : BuiltIn, protocol = known.id) (more : Bytes) :
    ∀ budget, earlier.length + budget = limit →
      outcome.headers <+:
        (builtIn.walk (front ++ more) budget earlier protocol offset).headers := by
  have hfirst {earlier : List HeaderRecord} {known : BuiltIn} {offset : Nat}
      {current : HeaderRecord} (hroom : earlier.length < limit)
      (hplaced : builtIn.Places front earlier known.id offset current) (budget : Nat)
      (hbudget : earlier.length + budget = limit) :
      [current] <+: (builtIn.walk (front ++ more) budget earlier known.id offset).headers := by
    obtain ⟨budget, rfl⟩ : ∃ n, budget = n + 1 := ⟨budget - 1, by omega⟩
    obtain ⟨inner, hheaders, -⟩ := exists_inner_of_places budget (hplaced.append more)
    rw [hheaders]
    exact List.prefix_append [current] inner
  induction h with
  | limited | unplaced => exact fun _ _ => List.nil_prefix
  | ended hroom hplaced _ =>
    obtain ⟨known, rfl⟩ := hprotocol
    exact hfirst hroom hplaced
  | unbound hroom hplaced _ _ =>
    obtain ⟨known, rfl⟩ := hprotocol
    exact hfirst hroom hplaced
  | bound hroom hplaced hrest hwins _ ih =>
    obtain ⟨known, rfl⟩ := hprotocol
    intro budget hbudget
    obtain ⟨budget, rfl⟩ : ∃ n, budget = n + 1 := ⟨budget - 1, by omega⟩
    have hmore : _ < (front ++ more).length :=
      Nat.lt_of_lt_of_le hrest (by rw [List.length_append]; omega)
    have hlater := ih (exists_builtIn_target hwins.tried) budget
      (by rw [List.length_append, List.length_singleton]; omega)
    rw [headers_of_wins budget (hplaced.append more) hmore (wins_append hplaced more hwins)]
    exact List.prefix_cons_iff.2 (.inr ⟨_, rfl, hlater⟩)

/-- The headers of a truncated buffer are the first headers of the whole one, whatever the root and
the configuration. -/
theorem headers_take_isPrefix (config : ScanConfig) (root : BuiltIn) (data : Bytes) (count : Nat) :
    (builtIn.scan config root.id (data.take count)).headers <+:
      (builtIn.scan config root.id data).headers := by
  have hroot := contains_builtIn root
  have hpayload := builtIn_ne_payload root
  by_cases hempty : data.take count = []
  · rw [hempty, scan, if_neg (by simp [hroot, hpayload]), if_pos rfl]
    exact List.nil_prefix
  · have hdata : data ≠ [] := by
      rintro rfl
      exact hempty List.take_nil
    have hfollows := builtIn.follows_scan config root.id (data.take count) hroot hpayload hempty
    have hprefix := hfollows.headers_append ⟨root, rfl⟩ (data.drop count) config.headerLimit
      (Nat.zero_add _)
    rwa [List.take_append_drop, ← headers_scan builtIn config root.id data hroot hpayload hdata]
      at hprefix

end FrozenRegistry

end Dissection
