import Rite.H2.Stream
import Rite.Http.Getlines
import Rite.Http.Layer
import Rite.Http.Parser
import Rite.Http.UriDecode

/-!
# The request target in HTTP/1.1 and in HTTP/2

`parser<http_request>::parse` keeps the target as the path of the request, and parses the query out
of it. `finish_stream` decodes the target first, parses the query out of what it gets, and cuts the
path in front of the query.

## Main results

* `agrees_iff`: the two requests have the same method, path and query, and the same endpoint,
  exactly if there is a target and it has no `?`, `%` or `+`;
* `not_agrees`: a target with a query is another path in HTTP/1.1.
-/

namespace Rite

namespace Http

open H2 (Stream)

/-- Two hexadecimal digits follow every `%`. -/
def WellEscaped (t : Octets) : Prop :=
  ∀ u v, t = u ++ 0x25 :: v → ∃ a b w, v = a :: b :: w ∧ isxdigit a ∧ isxdigit b

/-- The request of HTTP/1.1 with the method `m` and the target `t`, and that of the stream `s` have
the same method, path and query, and the same endpoint. -/
structure Agrees (ch ch' : Octet) (m t rest : Octets) (s : Stream) : Prop where
  /-- The request of HTTP/1.1 can be parsed. -/
  parses : (parse ch (requestHead m t rest) {}).1 = true
  /-- The methods. -/
  method : (parse ch (requestHead m t rest) {}).2.method = (s.finishStream ch').1.method
  /-- The paths. -/
  path : (parse ch (requestHead m t rest) {}).2.path = (s.finishStream ch').1.path
  /-- The queries. -/
  query : (parse ch (requestHead m t rest) {}).2.query = (s.finishStream ch').1.query
  /-- The endpoints. -/
  endpoint : ∀ endpoints, findEndpoint endpoints (parse ch (requestHead m t rest) {}).2 =
    findEndpoint endpoints (s.finishStream ch').1

theorem wellEscaped_of_notMem {t : Octets} (h : 0x25 ∉ t) : WellEscaped t := by
  rintro u v rfl
  simp at h

theorem isSome_parseQuery_iff (ch : Octet) (t : Octets) :
    (parseQuery ch t).isSome ↔ 0x3F ∈ t := by
  unfold parseQuery
  split_ifs with h <;> simp [h]

section FinishStream

variable {s : Stream} {m t : Octets}

/-- The request of a stream with a path and a method. -/
theorem finishStream_of_getHeader (ch : Octet) (hpath : s.getHeader (octets ":path") = some t)
    (hmethod : s.getHeader (octets ":method") = some m) :
    (s.finishStream ch).1.method = Http.method m ∧
    (s.finishStream ch).1.path = (uriDecode t).takeWhile (· ≠ 0x3F) ∧
    (s.finishStream ch).1.query = (parseQuery ch (uriDecode t)).getD [] := by
  simp only [Stream.finishStream, hpath, hmethod, true_and, and_true]
  split_ifs with hquery
  · rfl
  · -- without a query there is nothing to cut
    rw [isSome_parseQuery_iff] at hquery
    exact (takeWhile_ne_eq_self hquery).symm

end FinishStream

/-- The path of HTTP/2 is the target only if that has none of these. -/
theorem notMem_of_path_eq {t : Octets} (ht : ∀ c ∈ t, ¬ isspace c) (hesc : WellEscaped t)
    (h : t = (uriDecode t).takeWhile (· ≠ 0x3F)) : 0x3F ∉ t ∧ 0x25 ∉ t ∧ 0x2B ∉ t := by
  have hquery : 0x3F ∉ t := by
    intro hmem
    -- nothing in front of the first `?` is one
    rw [h] at hmem
    simpa using List.mem_takeWhile_imp hmem
  have hpercent : 0x25 ∉ t := by
    intro hmem
    -- the escape makes the path too short
    obtain ⟨u, v, rfl⟩ := List.append_of_mem hmem
    obtain ⟨a, b, w, rfl, ha, hb⟩ := hesc u v rfl
    have hlt := length_uriDecode_lt (s := u) (t := w) ha hb
    have hle := (List.takeWhile_prefix (l := uriDecode (u ++ 0x25 :: a :: b :: w))
      (· ≠ 0x3F)).length_le
    rw [← h] at hle
    omega
  refine ⟨hquery, hpercent, fun hmem => ?_⟩
  -- a `+` becomes a blank, of which the target has none
  have hprefix := List.takeWhile_prefix (l := uriDecode t) (· ≠ 0x3F)
  rw [← h, uriDecode_of_notMem hpercent] at hprefix
  have heq := hprefix.eq_of_length (by simp)
  have hblank : 0x20 ∈ t := by
    rw [heq]
    exact List.mem_map.mpr ⟨0x2B, hmem, if_pos rfl⟩
  exact ht _ hblank (by decide)

/-- The two requests agree exactly if there is a target without `?`, `%` and `+`. -/
theorem agrees_iff {ch ch' : Octet} {m t rest : Octets} {s : Stream} {x : HttpMethod}
    (hm : Http.method m = some x) (ht : ∀ c ∈ t, ¬ isspace c) (hesc : WellEscaped t)
    (hmethod : s.getHeader (octets ":method") = some m)
    (hpath : s.getHeader (octets ":path") = some t) :
    Agrees ch ch' m t rest s ↔ t ≠ [] ∧ 0x3F ∉ t ∧ 0x25 ∉ t ∧ 0x2B ∉ t := by
  obtain ⟨hmethod', hpath', hquery'⟩ := finishStream_of_getHeader ch' hpath hmethod
  constructor
  · intro h
    have hne : t ≠ [] := by
      rintro rfl
      have hparses := h.parses
      simp [parse_requestHead_nil ch {} rest hm] at hparses
    -- the paths alone decide it
    refine ⟨hne, notMem_of_path_eq ht hesc ?_⟩
    have heq := h.path
    rw [parse_requestHead ch {} rest hm hne ht, hpath'] at heq
    exact heq
  · rintro ⟨hne, hquery, hpercent, hplus⟩
    -- nothing is decoded, and there is no query
    have hdecode := uriDecode_eq_self hpercent hplus
    have hnone (ch : Octet) : parseQuery ch t = none := by
      rw [← Option.not_isSome_iff_eq_none, isSome_parseQuery_iff]
      exact hquery
    have htake : t.takeWhile (· ≠ 0x3F) = t := takeWhile_ne_eq_self hquery
    have hparse := parse_requestHead ch {} rest hm hne ht
    have hmethod'' : (parse ch (requestHead m t rest) {}).2.method =
        (s.finishStream ch').1.method := by
      rw [hparse, hmethod', hm]
    have hpath'' : (parse ch (requestHead m t rest) {}).2.path = (s.finishStream ch').1.path := by
      rw [hparse, hpath', hdecode, htake]
    have hquery'' : (parse ch (requestHead m t rest) {}).2.query =
        (s.finishStream ch').1.query := by
      rw [hparse, hquery', hdecode, hnone, hnone]
    exact ⟨by rw [hparse], hmethod'', hpath'', hquery'', findEndpoint_congr hmethod'' hpath''⟩

/-- A path in directories, in a request for it and a stream that asks for it. -/
theorem agrees_sample :
    Agrees 0 0 (octets "GET") (octets "/a/b") (octets "\r\n")
      { headers := [⟨octets ":method", octets "GET"⟩, ⟨octets ":path", octets "/a/b"⟩] } :=
  (agrees_iff (x := .get) (by decide) (by decide +kernel)
    (wellEscaped_of_notMem (by decide)) (by decide) (by decide)).mpr
    (by decide)

/-- A query stays in the path of HTTP/1.1. -/
theorem not_agrees :
    ¬ ∀ (ch ch' : Octet) (m t rest : Octets) (s : Stream) (x : HttpMethod),
      Http.method m = some x → (∀ c ∈ t, ¬ isspace c) → WellEscaped t →
      s.getHeader (octets ":method") = some m → s.getHeader (octets ":path") = some t →
      Agrees ch ch' m t rest s := by
  intro h
  have hagrees := h 0 0 (octets "GET") (octets "/?x=1") (octets "\r\n")
    { headers := [⟨octets ":method", octets "GET"⟩, ⟨octets ":path", octets "/?x=1"⟩] } .get
    (by decide) (by decide +kernel) (wellEscaped_of_notMem (by decide +kernel))
    (by decide) (by decide +kernel)
  exact absurd hagrees.path (by decide)

end Http

end Rite
