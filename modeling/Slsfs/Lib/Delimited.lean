import Slsfs.Lib.Bytes

/-!
# Records that end with a delimiter

A record is a head of fixed width, a body and one byte that ends it. `searchHeads` reads the heads
of a stream of records by searching for that byte behind each head. This is right exactly if the
byte does not occur in a body: a reader that has stopped too early never catches up, because a head
that it reads correctly in the wrong place repeats the end of the record before it.
-/

namespace Slsfs

/-- A head of `n` bytes and a body. -/
structure Record (n : ℕ) where
  head : List.Vector UInt8 n
  body : List UInt8

variable {n : ℕ} {delim : UInt8}

def Record.bytes (delim : UInt8) (r : Record n) : List UInt8 :=
  r.head.toList ++ (r.body ++ [delim])

/-- What follows the first delimiter; nothing if there is none. -/
def afterDelim (delim : UInt8) (stream : List UInt8) : List UInt8 :=
  (stream.dropWhile (· ≠ delim)).tail

/-- The heads of the records of a stream, in at most the given number of rounds. `none` if the
stream ends in a head. -/
def searchHeads (n : ℕ) (delim : UInt8) : ℕ → List UInt8 → Option (List (List.Vector UInt8 n))
  | 0, stream => if stream.isEmpty then some [] else none
  | rounds + 1, stream =>
    if stream.isEmpty then some []
    else
      match cut n stream with
      | none => none
      | some (head, rest) => (searchHeads n delim rounds (afterDelim delim rest)).map (head :: ·)

/-! ## The first delimiter

What follows the first delimiter behind a body is the next record, unless the body has one
itself. -/

theorem afterDelim_append_of_notMem {body rest : List UInt8} (h : delim ∉ body) :
    afterDelim delim (body ++ delim :: rest) = rest := by
  have hbody : ∀ b ∈ body, decide (b ≠ delim) = true := by
    intro b hb
    rw [decide_eq_true_iff]
    rintro rfl
    exact h hb
  rw [afterDelim, List.dropWhile_append_of_pos hbody, List.dropWhile_cons_of_neg (by simp),
    List.tail_cons]

theorem afterDelim_append_of_mem {body : List UInt8} (h : delim ∈ body) (rest : List UInt8) :
    ∃ left, afterDelim delim (body ++ delim :: rest) = left ++ delim :: rest := by
  obtain ⟨before, left, rfl, hbefore⟩ := List.eq_append_cons_of_mem h
  exact ⟨left, by rw [List.append_assoc, List.cons_append, afterDelim_append_of_notMem hbefore]⟩

/-! ## The heads

If a body contains the delimiter the search stops inside its record, with a delimiter still ahead of
the next record. From such a place it does not come to a right end: a head that is read there and is
the right one repeats what is in front of it, so another delimiter is still ahead, and after the
last head there are bytes left. -/

/-- A head that stands both at the start and behind a delimiter: its copies overlap, and the
delimiter comes again behind the first of them. -/
theorem mem_drop_of_repeats {p head : List UInt8}
    (h : (p ++ delim :: head).take head.length = head) :
    delim ∈ (p ++ delim :: head).drop head.length := by
  -- a byte of the head stands behind the delimiter and again at the start of the stream
  have hrepeats : ∀ j < head.length,
      (p ++ delim :: head)[j + (p.length + 1)]? = (p ++ delim :: head)[j]? := by
    intro j hj
    have hlater : (p ++ delim :: head)[j + (p.length + 1)]? = head[j]? := by
      rw [List.getElem?_append_right (by omega),
        show j + (p.length + 1) - p.length = j + 1 by omega,
        List.getElem?_cons_succ]
    rw [hlater]
    conv_lhs => rw [← h]
    rw [List.getElem?_take_of_lt hj]
  -- follow the delimiter from copy to copy until it is behind the head
  have hfind : ∀ k j, head.length ≤ j + k → (p ++ delim :: head)[j]? = some delim →
      ∃ x, head.length ≤ x ∧ (p ++ delim :: head)[x]? = some delim := by
    intro k
    induction k with
    | zero => exact fun j hj hdelim ↦ ⟨j, hj, hdelim⟩
    | succ k ih =>
      intro j hj hdelim
      by_cases hin : j < head.length
      · exact ih (j + (p.length + 1)) (by omega) (by rw [hrepeats j hin]; exact hdelim)
      · exact ⟨j, by omega, hdelim⟩
  obtain ⟨x, hx, hdelim⟩ := hfind head.length p.length (by omega) (by simp)
  refine List.mem_of_getElem? (i := x - head.length) ?_
  rw [List.getElem?_drop, Nat.add_sub_cancel' hx, hdelim]

theorem searchHeads_of_ne_nil {rounds : ℕ} {stream : List UInt8}
    {heads : List (List.Vector UInt8 n)} (hne : stream ≠ [])
    (h : searchHeads n delim rounds stream = some heads) :
    ∃ rounds' head rest heads', rounds = rounds' + 1 ∧ cut n stream = some (head, rest) ∧
      searchHeads n delim rounds' (afterDelim delim rest) = some heads' ∧
      heads = head :: heads' := by
  have hempty : ¬ stream.isEmpty = true := by rwa [List.isEmpty_iff]
  cases rounds with
  | zero =>
    rw [searchHeads, if_neg hempty] at h
    cases h
  | succ rounds =>
    rw [searchHeads, if_neg hempty] at h
    split at h
    · cases h
    · rename_i head rest hcut
      obtain ⟨heads', hrest, rfl⟩ := Option.map_eq_some_iff.mp h
      exact ⟨rounds, head, rest, heads', rfl, hcut, hrest, rfl⟩

theorem cut_eq_some {stream rest : List UInt8} {head : List.Vector UInt8 n}
    (h : cut n stream = some (head, rest)) :
    stream.take n = head.toList ∧ stream.drop n = rest := by
  rw [cut] at h
  split at h
  · cases h
    exact ⟨rfl, rfl⟩
  · cases h

/-- **Too early is never made good.** A reader that starts in front of the delimiter of the record
before does not read the heads. -/
theorem searchHeads_of_behind (rounds : ℕ) (p : List UInt8) (rs : List (Record n)) :
    searchHeads n delim rounds (p ++ delim :: rs.flatMap (Record.bytes delim))
      ≠ some (rs.map Record.head) := by
  induction rs generalizing rounds p with
  | nil =>
    intro h
    obtain ⟨_, head, _, heads, -, -, -, hcons⟩ := searchHeads_of_ne_nil (by simp) h
    cases hcons
  | cons r rs ih =>
    intro h
    obtain ⟨rounds', head, rest, heads, -, hcut, hrest, hcons⟩ :=
      searchHeads_of_ne_nil (by simp) h
    rw [List.map_cons, List.cons.injEq] at hcons
    obtain ⟨rfl, rfl⟩ := hcons
    obtain ⟨htake, rfl⟩ := cut_eq_some hcut
    have hlen : r.head.toList.length = n := r.head.toList_length
    have hstream : p ++ delim :: (r :: rs).flatMap (Record.bytes delim)
        = (p ++ delim :: r.head.toList) ++ r.body ++ delim :: rs.flatMap (Record.bytes delim) := by
      simp [Record.bytes]
    rw [hstream, List.append_assoc, List.take_append_of_le_length (by simp [hlen]; omega)] at htake
    rw [hstream, List.drop_append_of_le_length (by simp [hlen]; omega),
      List.drop_append_of_le_length (by simp [hlen]; omega)] at hrest
    -- the head that was cut is the right one, which also comes behind the delimiter
    have hrepeats : (p ++ delim :: r.head.toList).take r.head.toList.length = r.head.toList := by
      rw [hlen]
      exact htake
    have hmem := mem_drop_of_repeats hrepeats
    rw [hlen] at hmem
    obtain ⟨left, hleft⟩ := afterDelim_append_of_mem
      (List.mem_append_left r.body hmem) (rs.flatMap (Record.bytes delim))
    rw [hleft] at hrest
    exact ih rounds' left hrest

/-- **Reading by search** finds the heads exactly if no body contains the delimiter. -/
theorem searchHeads_eq_iff {rounds : ℕ} {rs : List (Record n)} (hrounds : rs.length ≤ rounds) :
    searchHeads n delim rounds (rs.flatMap (Record.bytes delim)) = some (rs.map Record.head) ↔
      ∀ r ∈ rs, delim ∉ r.body := by
  induction rs generalizing rounds with
  | nil => cases rounds <;> simp [searchHeads]
  | cons r rs ih =>
    rw [List.length_cons] at hrounds
    obtain ⟨k, rfl⟩ : ∃ k, rounds = k + 1 := ⟨rounds - 1, by omega⟩
    have hcut : cut n ((r :: rs).flatMap (Record.bytes delim))
        = some (r.head, r.body ++ delim :: rs.flatMap (Record.bytes delim)) := by
      rw [List.flatMap_cons, Record.bytes, List.append_assoc, cut_append, List.append_assoc]
      rfl
    rw [searchHeads, if_neg (by simp [Record.bytes]), hcut, List.forall_mem_cons, List.map_cons]
    dsimp only
    by_cases hbody : delim ∈ r.body
    · refine ⟨fun h ↦ ?_, fun h ↦ absurd hbody h.1⟩
      obtain ⟨left, hleft⟩ := afterDelim_append_of_mem hbody (rs.flatMap (Record.bytes delim))
      obtain ⟨heads, hheads, hcons⟩ := Option.map_eq_some_iff.mp h
      rw [List.cons.injEq] at hcons
      rw [hleft, hcons.2] at hheads
      exact absurd hheads (searchHeads_of_behind k left rs)
    · have hrest := ih (show rs.length ≤ k by omega)
      rw [afterDelim_append_of_notMem hbody, ← hrest]
      simp [hbody]

end Slsfs
