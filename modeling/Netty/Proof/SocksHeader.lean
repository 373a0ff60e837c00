import Netty.Spec.SocksUdp

/-!
# The header of a relayed datagram

* `header`: the bytes that `encodeHeader` writes.
* `header_reads`: a whole header is read back, and no part of one.
* `decodeHeader_ok`: an accepted header names a canonical address that can be written.
* `decodeHeader_payload`: the payload is the end of the datagram.
* `header_round_trip`: the two directions together.
-/

namespace Netty.Socks

open List

/-! ## Bytes -/

theorem fromUtf8_utf8 (name : String) : fromUtf8 (utf8 name) = some name := by
  unfold fromUtf8 utf8 String.fromUTF8?
  rw [Array.toArray_toList]
  exact dif_pos name.isValidUTF8

variable {name : String} {bytes : Bytes}

theorem utf8_of_fromUtf8 (h : fromUtf8 bytes = some name) : utf8 name = bytes := by
  unfold fromUtf8 String.fromUTF8? at h
  split at h
  · cases h
    rfl
  · cases h

theorem utf8_eq_nil : utf8 name = [] ↔ name = "" := by
  constructor
  · intro h
    have hn := fromUtf8_utf8 name
    rw [h] at hn
    exact (Option.some.inj (hn.symm.trans (fromUtf8_utf8 "")))
  · rintro rfl
    rfl

theorem fromBeBytes_beBytes (n : UInt16) : fromBeBytes ⟨beBytes n, rfl⟩ = n := by
  have h : n.toNat < 65536 := n.toNat_lt
  unfold fromBeBytes beBytes
  simp only [foldl_cons, foldl_nil, UInt8.toNat_ofNat']
  apply UInt16.toNat_inj.1
  rw [UInt16.toNat_ofNat']
  omega

/-! ## Parsers

Every parser here takes its bytes from the front, and says `truncated` if they do not
suffice. -/

section Reads

variable {α β : Type} {p : Bytes → Except HeaderError (α × Bytes)} {l l' : Bytes} {a : α} {b : β}

/-- The parser reads these bytes as `a`, whatever follows them, and no part of them. -/
def Reads (p : Bytes → Except HeaderError (α × Bytes)) (l : Bytes) (a : α) : Prop :=
  ∀ rest k, p ((l ++ rest).take k) =
    if k < l.length then .error .truncated else .ok (a, rest.take (k - l.length))

theorem Reads.whole (h : Reads p l a) (rest : Bytes) : p (l ++ rest) = .ok (a, rest) := by
  have hk := h rest (l ++ rest).length
  rw [take_length, length_append, if_neg (by omega), Nat.add_sub_cancel_left, take_length] at hk
  exact hk

theorem Reads.part (h : Reads p l a) {k : ℕ} (hk : k < l.length) : p (l.take k) = .error .truncated := by
  have ht := h [] k
  rwa [append_nil, if_pos hk] at ht

theorem Reads.bind {q : α → Bytes → Except HeaderError (β × Bytes)} (h : Reads p l a) (hq : Reads (q a) l' b) :
    Reads (fun bytes => p bytes >>= fun x => q x.1 x.2) (l ++ l') b := by
  intro rest k
  rw [append_assoc]
  simp only [h (l' ++ rest) k, length_append]
  by_cases h1 : k < l.length
  · rw [if_pos h1, if_pos (by omega)]
    rfl
  · rw [if_neg h1]
    show q a ((l' ++ rest).take (k - l.length)) = _
    rw [hq rest (k - l.length), Nat.sub_sub]
    by_cases h2 : k < l.length + l'.length
    · rw [if_pos h2, if_pos (by omega)]
    · rw [if_neg h2, if_neg (by omega)]

theorem Reads.map {f : α → Except HeaderError β} (h : Reads p l a) (hf : f a = .ok b) :
    Reads (fun bytes => p bytes >>= fun x => f x.1 >>= fun y => .ok (y, x.2)) l b := by
  intro rest k
  simp only [h rest k]
  split
  · rfl
  · show (f a >>= fun y => Except.ok (y, _)) = _
    rw [hf]
    rfl

theorem Reads.cons {byte : UInt8} (h : Reads p l a) {q : Bytes → Except HeaderError (α × Bytes)}
    (hnil : q [] = .error .truncated) (hq : ∀ bytes, q (byte :: bytes) = p bytes) : Reads q (byte :: l) a := by
  intro rest k
  cases k with
  | zero => exact hnil
  | succ k =>
    rw [cons_append, take_succ_cons, hq, h rest k, length_cons, Nat.add_sub_add_right]
    by_cases h1 : k < l.length
    · rw [if_pos h1, if_pos (by omega)]
    · rw [if_neg h1, if_neg (by omega)]

variable {n : ℕ}

theorem splitFirstChunk_append (o : Octets n) (rest : Bytes) : splitFirstChunk n (o.1 ++ rest) = .ok (o, rest) := by
  obtain ⟨l, rfl⟩ := o
  have h : l.length ≤ (l ++ rest).length := by
    rw [length_append]
    exact Nat.le_add_right _ _
  unfold splitFirstChunk
  rw [dif_pos h]
  simp

theorem splitFirstChunk_reads (o : Octets n) : Reads (splitFirstChunk n) o.1 o := by
  intro rest k
  rw [o.2]
  by_cases h : k < n
  · rw [if_pos h]
    exact dif_neg (by rw [length_take]; omega)
  · rw [if_neg h, take_append, o.2, take_of_length_le (by rw [o.2]; omega), splitFirstChunk_append]

theorem splitFirstChunk_ok {bytes rest : Bytes} {o : Octets n} (h : splitFirstChunk n bytes = .ok (o, rest)) :
    bytes = o.1 ++ rest := by
  unfold splitFirstChunk at h
  split at h
  · cases h
    exact (take_append_drop n bytes).symm
  · cases h

end Reads

/-! ## The bytes of a header -/

/-- The type and the bytes of an IP address. -/
def ipBytes : IpAddr → Bytes
  | .v4 ip => atypIpv4 :: ip.1
  | .v6 ip => atypIpv6 :: ip.1

/-- The bytes of the header for an address. -/
def header : Address → Bytes
  | .ip addr => [0, 0, 0] ++ ipBytes addr.ip.toCanonical ++ beBytes addr.port
  | .domain name port => [0, 0, 0, atypDomain, UInt8.ofNat (utf8 name).length] ++ utf8 name ++ beBytes port

/-- A domain name has to fit its length byte. -/
def Address.Encodable : Address → Prop
  | .ip _ => True
  | .domain name _ => 0 < (utf8 name).length ∧ (utf8 name).length ≤ 255

/-- The address as it is written: an IPv4-mapped address as IPv4, without flow and scope. -/
def Address.canonical : Address → Address
  | .ip addr => .ip (.new addr.ip.toCanonical addr.port)
  | .domain name port => .domain name port

variable {target : Address}

theorem encodeHeader_ok (h : target.Encodable) (buf : Bytes) :
    encodeHeader target buf = (.ok (), buf ++ header target) := by
  cases target with
  | ip addr => cases hc : addr.ip.toCanonical <;> simp [encodeHeader, putIp, header, ipBytes, hc]
  | domain name port =>
    have hlen : (utf8 name).length ≤ 255 ∧ 0 < (utf8 name).length := ⟨h.2, h.1⟩
    simp only [encodeHeader, header, if_pos hlen, append_assoc]

theorem encodeHeader_error (h : ¬target.Encodable) (buf : Bytes) :
    encodeHeader target buf = (.error .invalidDomain, buf) := by
  cases target with
  | ip addr => exact absurd trivial h
  | domain name port =>
    have hlen : ¬((utf8 name).length ≤ 255 ∧ 0 < (utf8 name).length) := fun hl => h ⟨hl.2, hl.1⟩
    simp only [encodeHeader, if_neg hlen]

theorem length_header (target : Address) : (header target).length = headerLen target := by
  cases target with
  | ip addr =>
    cases hc : addr.ip.toCanonical with
    | v4 ip => simp [header, ipBytes, headerLen, hc, ip.2, beBytes]
    | v6 ip => simp [header, ipBytes, headerLen, hc, ip.2, beBytes]
  | domain name port =>
    simp only [header, headerLen, beBytes, length_append, length_cons, length_nil]
    omega

theorem IpAddr.toCanonical_toCanonical (ip : IpAddr) : ip.toCanonical.toCanonical = ip.toCanonical := by
  cases ip with
  | v4 o => rfl
  | v6 o =>
    by_cases h : o.1.take 12 = mappedStart
    · simp only [toCanonical, if_pos h]
    · simp only [toCanonical, if_neg h]

/-! ## Reading it back -/

theorem decodePort_reads (port : UInt16) : Reads decodePort (beBytes port) port :=
  (splitFirstChunk_reads (⟨beBytes port, rfl⟩ : Octets 2)).map
    (f := fun o => .ok (fromBeBytes o)) (congrArg Except.ok (fromBeBytes_beBytes port))

theorem decodeIp_reads (ip : IpAddr) (port : UInt16) :
    Reads (decodeIp ip) (beBytes port) (.ip (.new ip.toCanonical port)) :=
  (decodePort_reads port).map (f := fun port => .ok (Address.ip (.new ip.toCanonical port))) rfl

variable {port : UInt16}

theorem domainOf_utf8 (h : (Address.domain name port).Encodable) :
    domainOf (utf8 name) port = .ok (.domain name port) := by
  have hname : name ≠ "" := fun hn => by
    have hpos := h.1
    rw [utf8_eq_nil.2 hn] at hpos
    cases hpos
  unfold domainOf
  rw [fromUtf8_utf8, Option.filter_some, if_pos (decide_eq_true hname)]

theorem decodeDomain_reads (h : (Address.domain name port).Encodable) :
    Reads decodeDomain (UInt8.ofNat (utf8 name).length :: (utf8 name ++ beBytes port)) (.domain name port) := by
  have hlen : (utf8 name).length = (UInt8.ofNat (utf8 name).length).toNat := by
    rw [UInt8.toNat_ofNat']
    have := h.2
    omega
  have hport := (decodePort_reads port).map (f := domainOf (utf8 name)) (domainOf_utf8 h)
  have hname := (splitFirstChunk_reads (⟨utf8 name, hlen⟩ : Octets _)).bind
    (q := fun o bytes => decodePort bytes >>= fun x => domainOf o.1 x.1 >>= fun y => .ok (y, x.2)) hport
  exact hname.cons rfl fun _ => rfl

theorem decodeAddr_ip_reads (ip : IpAddr) (port : UInt16) : ∃ atyp octets, ipBytes ip = atyp :: octets ∧
    Reads (decodeAddr atyp) (octets ++ beBytes port) (.ip (.new ip.toCanonical port)) := by
  cases ip with
  | v4 o =>
    exact ⟨_, _, rfl, (splitFirstChunk_reads o).bind (q := fun o => decodeIp (.v4 o)) (decodeIp_reads (.v4 o) port)⟩
  | v6 o =>
    exact ⟨_, _, rfl, (splitFirstChunk_reads o).bind (q := fun o => decodeIp (.v6 o)) (decodeIp_reads (.v6 o) port)⟩

variable {atyp : UInt8}

theorem decodeHeader_reads {l : Bytes} {a : Address} (h : Reads (decodeAddr atyp) l a) :
    Reads decodeHeader (0 :: 0 :: 0 :: atyp :: l) a := by
  intro rest k
  rcases k with _ | _ | _ | _ | k
  · rfl
  · rfl
  · rfl
  · rfl
  · show decodeAddr atyp ((l ++ rest).take k) = _
    rw [h rest k]
    simp only [length_cons, Nat.add_lt_add_iff_right, Nat.add_sub_add_right]

/-- **A header is read back**, and no part of it. -/
theorem header_reads (h : target.Encodable) : Reads decodeHeader (header target) target.canonical := by
  cases target with
  | ip addr =>
    obtain ⟨atyp, octets, hip, hr⟩ := decodeAddr_ip_reads addr.ip.toCanonical addr.port
    rw [IpAddr.toCanonical_toCanonical] at hr
    have hh := decodeHeader_reads hr
    simp only [header, hip]
    exact hh
  | domain name port =>
    have hr : Reads (decodeAddr atypDomain) _ _ := decodeDomain_reads h
    simp only [header, append_assoc]
    exact decodeHeader_reads hr

/-! ## What is accepted -/

theorem canonical_of_new (ip : IpAddr) (port : UInt16) :
    (Address.ip (.new ip.toCanonical port)).canonical = .ip (.new ip.toCanonical port) := by
  have h : ∀ c : IpAddr, (SocketAddr.new c port).ip = c ∧ (SocketAddr.new c port).port = port := fun c => by
    cases c <;> exact ⟨rfl, rfl⟩
  obtain ⟨hip, hport⟩ := h ip.toCanonical
  simp only [Address.canonical, hip, hport, IpAddr.toCanonical_toCanonical]

variable {addr : Address} {rest : Bytes}

theorem decodeIp_ok {ip : IpAddr} (h : decodeIp ip bytes = .ok (addr, rest)) :
    ∃ port, addr = .ip (.new ip.toCanonical port) := by
  obtain ⟨x, -, hx⟩ := bind_ok h
  cases hx
  exact ⟨x.1, rfl⟩

theorem domainOf_ok {name : Bytes} (h : domainOf name port = .ok addr) :
    ∃ s : String, utf8 s = name ∧ s ≠ "" ∧ addr = .domain s port := by
  unfold domainOf at h
  split at h
  · rename_i s hs
    rw [Option.filter_eq_some_iff] at hs
    cases h
    exact ⟨s, utf8_of_fromUtf8 hs.1, of_decide_eq_true hs.2, rfl⟩
  · cases h

theorem decodeDomain_ok (h : decodeDomain bytes = .ok (addr, rest)) :
    ∃ name port, addr = .domain name port ∧ addr.Encodable := by
  cases bytes with
  | nil => cases h
  | cons len bytes =>
    obtain ⟨⟨name, l⟩, -, h⟩ := bind_ok h
    obtain ⟨⟨port, l'⟩, -, h⟩ := bind_ok h
    obtain ⟨addr', hd, h⟩ := bind_ok h
    cases h
    obtain ⟨s, hs, hne, rfl⟩ := domainOf_ok hd
    have hlen : (utf8 s).length = len.toNat := by rw [hs, name.2]
    refine ⟨s, port, rfl, length_pos_iff.2 fun hnil => hne (utf8_eq_nil.1 hnil), ?_⟩
    rw [hlen]
    exact Nat.le_of_lt_succ len.toNat_lt

/-- An accepted address can be written, and is canonical. -/
theorem decodeAddr_ok (h : decodeAddr atyp bytes = .ok (addr, rest)) : addr.Encodable ∧ addr.canonical = addr := by
  unfold decodeAddr at h
  split at h
  · obtain ⟨x, -, h⟩ := bind_ok h
    obtain ⟨port, rfl⟩ := decodeIp_ok h
    exact ⟨trivial, canonical_of_new _ port⟩
  split at h
  · obtain ⟨x, -, h⟩ := bind_ok h
    obtain ⟨port, rfl⟩ := decodeIp_ok h
    exact ⟨trivial, canonical_of_new _ port⟩
  split at h
  · obtain ⟨name, port, rfl, he⟩ := decodeDomain_ok h
    exact ⟨he, rfl⟩
  · cases h

theorem decodeHeader_ok {datagram payload : Bytes} (h : decodeHeader datagram = .ok (addr, payload)) :
    addr.Encodable ∧ addr.canonical = addr := by
  unfold decodeHeader at h
  split at h
  · split at h
    · cases h
    split at h
    · cases h
    · exact decodeAddr_ok h
  · cases h

/-! ## What is left -/

theorem decodePort_suffix (h : decodePort bytes = .ok (port, rest)) : rest <:+ bytes := by
  obtain ⟨⟨o, l⟩, hs, h⟩ := bind_ok h
  cases h
  exact ⟨o.1, (splitFirstChunk_ok hs).symm⟩

theorem decodeIp_suffix {ip : IpAddr} (h : decodeIp ip bytes = .ok (addr, rest)) : rest <:+ bytes := by
  obtain ⟨⟨port, l⟩, hp, h⟩ := bind_ok h
  cases h
  exact decodePort_suffix hp

theorem decodeDomain_suffix (h : decodeDomain bytes = .ok (addr, rest)) : rest <:+ bytes := by
  cases bytes with
  | nil => cases h
  | cons len bytes =>
    obtain ⟨⟨name, l⟩, hs, h⟩ := bind_ok h
    obtain ⟨⟨port, l'⟩, hp, h⟩ := bind_ok h
    obtain ⟨addr', -, h⟩ := bind_ok h
    cases h
    rw [splitFirstChunk_ok hs]
    exact (decodePort_suffix hp).trans ⟨len :: name.1, rfl⟩

theorem decodeAddr_suffix (h : decodeAddr atyp bytes = .ok (addr, rest)) : rest <:+ bytes := by
  unfold decodeAddr at h
  split at h
  · obtain ⟨⟨o, l⟩, hs, h⟩ := bind_ok h
    exact (decodeIp_suffix h).trans ⟨o.1, (splitFirstChunk_ok hs).symm⟩
  split at h
  · obtain ⟨⟨o, l⟩, hs, h⟩ := bind_ok h
    exact (decodeIp_suffix h).trans ⟨o.1, (splitFirstChunk_ok hs).symm⟩
  split at h
  · exact decodeDomain_suffix h
  · cases h

/-- **A payload is the end of its datagram**, behind a header. -/
theorem decodeHeader_payload {datagram payload : Bytes} (h : decodeHeader datagram = .ok (addr, payload)) :
    ∃ head, head ≠ [] ∧ datagram = head ++ payload := by
  unfold decodeHeader at h
  split at h
  · split at h
    · cases h
    split at h
    · cases h
    · obtain ⟨head, hhead⟩ := decodeAddr_suffix h
      rw [← hhead]
      exact ⟨_ :: _ :: _ :: _ :: head, cons_ne_nil _ _, rfl⟩
  · cases h

/-! ## Both directions -/

/-- **SOCKS5 UDP headers round-trip.** For every target that fits its length byte, the
header is `headerLen` bytes behind what the buffer held; in front of any payload it is read
back as the target in canonical form with that payload; and every part of it alone is
truncated. Other targets are the domain names of no byte or of more than 255, and nothing
is written for them. An accepted datagram names an address whose header is read back as
the same address. -/
theorem header_round_trip :
    (∀ (target : Address) (buf : Bytes), (encodeHeader target buf).1 = .ok () →
      ∃ header, (encodeHeader target buf).2 = buf ++ header ∧ header.length = headerLen target ∧
        (∀ payload, decodeHeader (header ++ payload) = .ok (target.canonical, payload)) ∧
        ∀ k < header.length, decodeHeader (header.take k) = .error .truncated) ∧
    (∀ (target : Address) (buf : Bytes), (∃ e, (encodeHeader target buf).1 = .error e) ↔
      ∃ name port, target = .domain name port ∧ ((utf8 name).length = 0 ∨ 255 < (utf8 name).length)) ∧
    (∀ (target : Address) (buf : Bytes) (e : HeaderError), (encodeHeader target buf).1 = .error e →
      (encodeHeader target buf).2 = buf) ∧
    (∀ (datagram payload : Bytes) (addr : Address), decodeHeader datagram = .ok (addr, payload) →
      ∃ header, encodeHeader addr [] = (.ok (), header) ∧ decodeHeader header = .ok (addr, [])) := by
  refine ⟨fun target buf h => ?_, fun target buf => ⟨?_, ?_⟩, fun target buf e h => ?_,
    fun datagram payload addr h => ?_⟩
  · by_cases he : target.Encodable
    · rw [encodeHeader_ok he]
      exact ⟨header target, rfl, length_header target, (header_reads he).whole, fun k hk => (header_reads he).part hk⟩
    · rw [encodeHeader_error he] at h
      cases h
  · -- an address whose header fails is a name that does not fit
    rintro ⟨e, h⟩
    cases target with
    | ip addr => cases h
    | domain name port =>
      refine ⟨name, port, rfl, ?_⟩
      by_contra hlen
      rw [encodeHeader_ok (show (Address.domain name port).Encodable from ⟨by omega, by omega⟩)] at h
      cases h
  · rintro ⟨name, port, rfl, hlen⟩
    rw [encodeHeader_error fun he => by have h1 := he.1; have h2 := he.2; omega]
    exact ⟨_, rfl⟩
  · by_cases he : target.Encodable
    · rw [encodeHeader_ok he] at h
      cases h
    · rw [encodeHeader_error he]
  · obtain ⟨he, hc⟩ := decodeHeader_ok h
    have hr := (header_reads he).whole []
    rw [append_nil, hc] at hr
    exact ⟨header addr, encodeHeader_ok he [], hr⟩

end Netty.Socks
