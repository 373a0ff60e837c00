import Netty.Proof.Headers
import Netty.Spec.Message

/-!
# Requests of version HTTP/2 on an HTTP/1 connection

A request of version HTTP/2 is written with the words `HTTP/1.1` in its request line. How its body
is framed was decided before, by the version it came with: only HTTP/1.1 may be chunked. So a body
that would be sent in chunks is not sent at all.

* `Client.SameFraming`: no chunks are wanted.
* `encode_http2_iff`: **when the two versions are written alike**.
* `encode_http2_drops`: a body that is dropped.
-/

namespace Netty.Client

/-- The body is not sent in chunks: there is none, or no transfer coding is asked for and its length is given,
known, or not expected. -/
def SameFraming (head : RequestHead) (body : Option BodyLength) : Prop :=
  body = none ∨
    head.headers.containsKey .transferEncoding = false ∧
      (contentLengthParseAll head.headers ≠ none ∨ (∃ n, body = some (.known n)) ∨
        head.subject.method ∈ [.get, .head, .connect])

theorem kind_withTrailerNames (headers : HeaderMap) :
    ∃ tr, (withTrailerNames headers Encoder.chunked).kind = .chunked tr := by
  unfold withTrailerNames
  split
  · exact ⟨some (trailerNames headers), rfl⟩
  · exact ⟨none, rfl⟩

theorem kind_setLength_http2 (head : RequestHead) (body : Option BodyLength) :
    ∃ n, (setLength { head with version := .http2 } body).1.kind = .length n := by
  cases body with
  | none => exact ⟨0, rfl⟩
  | some body =>
    simp only [setLength, ne_eq, reduceCtorEq, not_false_eq_true, if_true]
    cases contentLengthParseAll head.headers with
    | some len => exact ⟨len, rfl⟩
    | none =>
      cases body with
      | known len => exact ⟨len, rfl⟩
      | unknown => exact ⟨0, rfl⟩

/-- Without a transfer coding and with a length, the framing does not look at the version. -/
theorem setLength_http2 {head : RequestHead} {body : Option BodyLength} (h : SameFraming head body) :
    setLength { head with version := .http2 } body = setLength { head with version := .http11 } body := by
  rcases h with rfl | ⟨hte, hlen⟩
  · rfl
  · cases body with
    | none => rfl
    | some body =>
      simp only [setLength, ne_eq, reduceCtorEq, not_false_eq_true, not_true_eq_false, if_true, if_false, hte,
        HeaderMap.remove_of_notMem hte, Bool.false_eq_true]
      cases hcl : contentLengthParseAll head.headers with
      | some len => rfl
      | none =>
        cases body with
        | known len => rfl
        | unknown =>
          rcases hlen with hlen | ⟨n, hn⟩ | hm
          · exact absurd hcl hlen
          · cases hn
          · simp only [List.mem_cons, List.not_mem_nil, or_false] at hm
            rcases hm with hm | hm | hm <;> simp only [hm]

theorem kind_setLength_http11 {head : RequestHead} {body : Option BodyLength} (h : ¬ SameFraming head body) :
    ∃ tr, (setLength { head with version := .http11 } body).1.kind = .chunked tr := by
  unfold SameFraming at h
  push Not at h
  obtain ⟨hbody, h⟩ := h
  cases body with
  | none => exact absurd rfl hbody
  | some body =>
    simp only [setLength, ne_eq, not_true_eq_false, if_false]
    cases hte : head.headers.containsKey .transferEncoding with
    | true => exact kind_withTrailerNames _
    | false =>
      obtain ⟨hcl, hknown, hm⟩ := h hte
      simp only [hcl, Bool.false_eq_true, if_false]
      cases body with
      | known len => exact absurd rfl (hknown len)
      | unknown =>
        simp only
        split
        · rename_i hg; simp [hg] at hm
        · rename_i hg; simp [hg] at hm
        · rename_i hg; simp [hg] at hm
        · exact kind_withTrailerNames _

/-- **A request of version HTTP/2 is written like one of HTTP/1.1**, with the same encoder for its body, if and only
if HTTP/1.1 would not send that body in chunks. -/
theorem encode_http2_iff (head : RequestHead) (body : Option BodyLength) :
    encode { head with version := .http2 } body = encode { head with version := .http11 } body ↔
      SameFraming head body := by
  constructor
  · intro h
    by_contra hn
    obtain ⟨tr, htr⟩ := kind_setLength_http11 hn
    obtain ⟨n, hlen⟩ := kind_setLength_http2 head body
    have hfst : ∀ v, (encode { head with version := v } body).1 = (setLength { head with version := v } body).1 :=
      fun _ => rfl
    rw [← hfst, ← h, hfst, hlen] at htr
    cases htr
  · intro h
    unfold encode
    rw [setLength_http2 h]
    rfl

/-- **A body that is dropped**: `POST /` with a body of unknown length. -/
theorem encode_http2_drops :
    let post (v : Version) : RequestHead := ⟨v, ⟨.post, ascii "/"⟩, .empty, .none⟩
    encode (post .http11) (some .unknown) = (Encoder.chunked, ascii "POST / HTTP/1.1" ++ crlf ++
      ascii "transfer-encoding: chunked" ++ crlf ++ crlf) ∧
    encode (post .http2) (some .unknown) = (Encoder.length 0, ascii "POST / HTTP/1.1" ++ crlf ++ crlf) := by
  decide +kernel

end Netty.Client
