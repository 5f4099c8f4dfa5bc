import WaterCredits.Oracle.Markers

/-! # Nonces and replay protection

Commitments and direct readings spend the nonces of an oracle in a project one
by one. A submission carries a nonce that was spent before, and no nonce brings
two submissions, as long as the counter does not wrap around.
-/

namespace WaterCredits.Oracle

open Foundation Function

variable {contract : Address} {W : Type} {o : Outside W} {e : Env contract} {s s' : State}
  {w w' : W} {p : ProjectId} {a b : Address} {c : Call} {v v' : View} {n : UInt64}
  {tr : Trace (State × W) (Event contract W)} {st : Step (State × W) (Event contract W)}

namespace Event

/-- The nonce that a call of an oracle spends in a project. -/
def spends (p : ProjectId) (a : Address) : Event contract W → Option UInt64
  | .call _ (.commitReading b q n _) | .call _ (.submitReading b q n _) =>
      if q = p ∧ b = a then some n else none
  | _ => none

def contributes (p : ProjectId) : Event contract W → Option (Address × UInt64)
  | .call _ (.submitReading b q n _) => if q = p then some (b, n) else none
  | .call _ (.revealReading b q params) => if q = p then some (b, params.nonce) else none
  | _ => none

theorem spends_of_ne (h : c.project ≠ some p) :
    (.call e c : Event contract W).spends p a = none := by
  cases c with
  | commitReading b q | submitReading b q => exact if_neg fun hq => h (congrArg some hq.1)
  | _ => rfl

theorem contributes_of_ne (h : c.project ≠ some p) :
    (.call e c : Event contract W).contributes p = none := by
  cases c with
  | submitReading b q | revealReading b q => exact if_neg fun hq => h (congrArg some hq)
  | _ => rfl

end Event

/-- The nonces that an oracle spent in a project, the most recent first. -/
def spent (p : ProjectId) (a : Address) (tr : Trace (State × W) (Event contract W)) : List UInt64 :=
  tr.filterMap fun st => st.label.spends p a

/-- The oracles and nonces of the submissions to a project, the most recent first. -/
def contributions (p : ProjectId) (tr : Trace (State × W) (Event contract W)) :
    List (Address × UInt64) :=
  tr.filterMap fun st => st.label.contributes p

theorem spent_of_none (h : st.label.spends p a = none) : spent p a (st :: tr) = spent p a tr :=
  List.filterMap_cons_none h

theorem spent_of_some (h : st.label.spends p a = some n) :
    spent p a (st :: tr) = n :: spent p a tr :=
  List.filterMap_cons_some h

theorem contributions_of_none (h : st.label.contributes p = none) :
    contributions p (st :: tr) = contributions p tr :=
  List.filterMap_cons_none h

theorem contributions_of_some (h : st.label.contributes p = some (b, n)) :
    contributions p (st :: tr) = (b, n) :: contributions p tr :=
  List.filterMap_cons_some h

theorem execute_nonce (h : execute o e s w c = .ok (s', w')) :
    s'.oracleNonce (p, a) =
        ((.call e c : Event contract W).spends p a).getD (s.oracleNonce (p, a)) ∧
      ∀ n, (.call e c : Event contract W).spends p a = some n →
        n = s.oracleNonce (p, a) + 1 := by
  have quiet (hc : (.call e c : Event contract W).spends p a = none)
      (hn : s'.oracleNonce = s.oracleNonce) :
      s'.oracleNonce (p, a) =
          ((.call e c : Event contract W).spends p a).getD (s.oracleNonce (p, a)) ∧
        ∀ n, (.call e c : Event contract W).spends p a = some n →
          n = s.oracleNonce (p, a) + 1 := by
    rw [hc, hn]
    exact ⟨rfl, fun n hn => by cases hn⟩
  have spend {b : Address} {q : ProjectId} {m : UInt64}
      (hc : (.call e c : Event contract W).spends p a = if q = p ∧ b = a then some m else none)
      (hm : m = s.oracleNonce (q, b) + 1) (hn : s'.oracleNonce = update s.oracleNonce (q, b) m) :
      s'.oracleNonce (p, a) =
          ((.call e c : Event contract W).spends p a).getD (s.oracleNonce (p, a)) ∧
        ∀ n, (.call e c : Event contract W).spends p a = some n →
          n = s.oracleNonce (p, a) + 1 := by
    rw [hc, hn]
    by_cases hq : q = p ∧ b = a
    · obtain ⟨rfl, rfl⟩ := hq
      simpa using hm
    · have hne : (p, a) ≠ (q, b) := fun heq => hq (by cases heq; exact ⟨rfl, rfl⟩)
      simp [hq, update_of_ne hne]
  cases c with
  | submitReading b q m reading =>
    obtain ⟨r, h⟩ := discard_eq_ok.mp h
    obtain ⟨-, -, hm, window, closed, -, -, -, hwin, -⟩ := submitReading_cases h
    exact spend rfl hm ((congrArg (·.oracleNonce) hwin).trans rfl)
  | commitReading b q m commitment =>
    obtain ⟨-, -, -, hm, -, rfl⟩ := commitReading_cases (within_eq_ok.mp h).1
    exact spend rfl hm rfl
  | revealReading =>
    obtain ⟨r, h⟩ := discard_eq_ok.mp h
    obtain ⟨-, -, -, -, window, closed, -, -, -, -, hwin, -⟩ := revealReading_cases h
    refine quiet rfl ((congrArg (·.oracleNonce) hwin).trans ?_)
    cases closed <;> rfl
  | finalizeWindow =>
    obtain ⟨r, h⟩ := discard_eq_ok.mp h
    obtain ⟨-, window, closed, t, u, -, -, -, -, hwin, -⟩ := finalizeWindow_cases h
    refine quiet rfl ((congrArg (·.oracleNonce) hwin).trans ?_)
    cases closed <;> rfl
  | openWindow =>
    obtain ⟨-, rfl⟩ := openWindow_cases (within_eq_ok.mp h).1
    exact quiet rfl rfl
  | resetWindow =>
    obtain ⟨_, -, hwin, -⟩ := resetWindow_cases (within_eq_ok.mp h).1
    exact quiet rfl (congrArg (·.oracleNonce) hwin)
  | beginRevealPhase =>
    obtain ⟨_, -, -, -, rfl⟩ := beginRevealPhase_cases (within_eq_ok.mp h).1
    exact quiet rfl rfl
  | addOracle =>
    obtain ⟨-, -, rfl⟩ := addOracle_cases (within_eq_ok.mp h).1
    exact quiet rfl rfl
  | removeOracle =>
    obtain ⟨-, rfl⟩ := removeOracle_cases (within_eq_ok.mp h).1
    exact quiet rfl rfl
  | _ => exact quiet rfl (congrArg (·.oracleNonce) (execute_inert rfl h).windows)

/-- The nonces that an oracle spent are the first ones in order, and the counter is their number. -/
structure InOrder (p : ProjectId) (a : Address) (tr : Trace (State × W) (Event contract W))
    (s : State) : Prop where
  counter : (s.oracleNonce (p, a)).toNat = (spent p a tr).length
  order : (spent p a tr).map UInt64.toNat = (List.range' 1 (spent p a tr).length).reverse

/-- The next nonce, unless the counter wraps around. -/
theorem toNat_next (h : n.toNat + 1 < 2 ^ 64) : (n + 1).toNat = n.toNat + 1 := by
  rw [UInt64.toNat_add]
  exact Nat.mod_eq_of_lt h

theorem inOrder_execute (hi : InOrder p a tr s)
    (hk : (spent p a (⟨(s, w), .call e c, (s', w')⟩ :: tr)).length < 2 ^ 64)
    (h : execute o e s w c = .ok (s', w')) :
    InOrder p a (⟨(s, w), .call e c, (s', w')⟩ :: tr) s' := by
  obtain ⟨hcount, hnext⟩ := execute_nonce (p := p) (a := a) h
  cases hsp : (.call e c : Event contract W).spends p a with
  | none =>
    rw [hsp] at hcount
    have heq : spent p a (⟨(s, w), .call e c, (s', w')⟩ :: tr) = spent p a tr := spent_of_none hsp
    exact ⟨by rw [heq, hcount]; exact hi.counter, by rw [heq]; exact hi.order⟩
  | some n =>
    have heq : spent p a (⟨(s, w), .call e c, (s', w')⟩ :: tr) = n :: spent p a tr :=
      spent_of_some hsp
    have hn : n.toNat = (spent p a tr).length + 1 := by
      rw [heq, List.length_cons] at hk
      rw [hnext n hsp, toNat_next (by rwa [hi.counter]), hi.counter]
    rw [hsp] at hcount
    constructor
    · rw [heq, hcount]
      exact hn
    · rw [heq, List.map_cons, hi.order, hn, List.length_cons, List.range'_1_concat,
        List.reverse_append, add_comm 1]
      rfl

/--
No nonce of an oracle brought two submissions, and the nonce of its commitment
brought none yet, unless the commitment has been revealed.
-/
structure Unreplayed (a : Address) (k : ℕ) (seen : List (Address × UInt64)) (v : View) :
    Prop where
  bounded : ∀ n, (a, n) ∈ seen → n.toNat ≤ k
  once : ∀ n, seen.count (a, n) ≤ 1
  committed : ∀ info, v.commitment a = some info →
    info.nonce.toNat ≤ k ∧ (v.revealed a = false → (a, info.nonce) ∉ seen)

namespace Unreplayed

variable {k : ℕ} {seen : List (Address × UInt64)}

theorem keep (h : Unreplayed a k seen v) (hv : ∀ info, v'.commitment a = some info →
    v.commitment a = some info ∧ (v'.revealed a = false → v.revealed a = false)) :
    Unreplayed a k seen v' where
  bounded := h.bounded
  once := h.once
  committed info hi := by
    obtain ⟨hc, hr⟩ := hv info hi
    obtain ⟨hle, hnew⟩ := h.committed info hc
    exact ⟨hle, fun hn => hnew (hr hn)⟩

theorem other (h : Unreplayed a k seen v) (hb : b ≠ a) :
    Unreplayed a k ((b, n) :: seen) v := by
  have hne (m : UInt64) : (b, n) ≠ (a, m) := fun heq => hb (Prod.mk.inj heq).1
  constructor
  · intro m hm
    exact h.bounded m ((List.mem_cons.mp hm).resolve_left (hne m).symm)
  · intro m
    rw [List.count_cons_of_ne (hne m)]
    exact h.once m
  · intro info hi
    obtain ⟨hle, hnew⟩ := h.committed info hi
    exact ⟨hle, fun hn hm => hnew hn ((List.mem_cons.mp hm).resolve_left (hne _).symm)⟩

theorem add (h : Unreplayed a k seen v) (hle : n.toNat ≤ k) (hnew : (a, n) ∉ seen)
    (hv : ∀ info, v.commitment a = some info → v.revealed a = false → info.nonce ≠ n) :
    Unreplayed a k ((a, n) :: seen) v := by
  constructor
  · intro m hm
    rcases List.mem_cons.mp hm with heq | hm
    · cases heq
      exact hle
    · exact h.bounded m hm
  · intro m
    by_cases hm : m = n
    · rw [hm, List.count_cons_self, List.count_eq_zero_of_not_mem hnew]
    · rw [List.count_cons_of_ne fun heq => hm (Prod.mk.inj heq).2.symm]
      exact h.once m
  · intro info hi
    obtain ⟨hle', hnew'⟩ := h.committed info hi
    refine ⟨hle', fun hn hm => ?_⟩
    rcases List.mem_cons.mp hm with heq | hm
    · exact hv info hi hn (Prod.mk.inj heq).2
    · exact hnew' hn hm

theorem room (h : Unreplayed a k seen v) : Unreplayed a (k + 1) seen v where
  bounded n hn := (h.bounded n hn).trans (Nat.le_succ k)
  once := h.once
  committed info hi := ⟨(h.committed info hi).1.trans (Nat.le_succ k), (h.committed info hi).2⟩

theorem not_mem_next (h : Unreplayed a k seen v) (hn : n.toNat = k + 1) : (a, n) ∉ seen := by
  intro hm
  have := h.bounded n hm
  omega

theorem ne_next (h : Unreplayed a k seen v) (hn : n.toNat = k + 1) {info : CommitInfo}
    (hi : v.commitment a = some info) : info.nonce ≠ n := by
  rintro rfl
  have := (h.committed info hi).1
  omega

theorem commit {commitment : BytesN 32} (h : Unreplayed a k seen v) (hn : n.toNat = k + 1) :
    Unreplayed a (k + 1) seen
      { v with commitment := update v.commitment a (some ⟨commitment, n⟩) } where
  bounded := h.room.bounded
  once := h.once
  committed info hi := by
    simp only [update_self, Option.some.injEq] at hi
    subst hi
    exact ⟨hn.le, fun _ => h.not_mem_next hn⟩

end Unreplayed

theorem inOrder_next (hi : InOrder p a tr s)
    (hk : (spent p a (⟨(s, w), .call e c, (s', w')⟩ :: tr)).length < 2 ^ 64)
    (h : execute o e s w c = .ok (s', w'))
    (hsp : (.call e c : Event contract W).spends p a = some n) :
    n.toNat = (spent p a tr).length + 1 := by
  have hcons : spent p a (⟨(s, w), .call e c, (s', w')⟩ :: tr) = n :: spent p a tr :=
    spent_of_some hsp
  rw [hcons, List.length_cons] at hk
  rw [(execute_nonce h).2 n hsp, toNat_next (by rwa [hi.counter]), hi.counter]

theorem Move.unreplayed (hm : Move o e s p (s.view p) c v')
    (hex : execute o e s w c = .ok (s', w')) (hi : InOrder p a tr s)
    (hk : (spent p a (⟨(s, w), .call e c, (s', w')⟩ :: tr)).length < 2 ^ 64)
    (h : Unreplayed a (spent p a tr).length (contributions p tr) (s.view p)) :
    Unreplayed a (spent p a (⟨(s, w), .call e c, (s', w')⟩ :: tr)).length
      (contributions p (⟨(s, w), .call e c, (s', w')⟩ :: tr)) v' := by
  have hnext (n : UInt64) := inOrder_next (n := n) hi hk hex
  have idle (hsp : (.call e c : Event contract W).spends p a = none)
      (hco : (.call e c : Event contract W).contributes p = none)
      (hv : ∀ info, v'.commitment a = some info → (s.view p).commitment a = some info ∧
        (v'.revealed a = false → (s.view p).revealed a = false)) :
      Unreplayed a (spent p a (⟨(s, w), .call e c, (s', w')⟩ :: tr)).length
        (contributions p (⟨(s, w), .call e c, (s', w')⟩ :: tr)) v' := by
    rw [spent_of_none hsp, contributions_of_none hco]
    exact h.keep hv
  cases hm with
  | idle hc =>
    exact idle (Event.spends_of_ne hc) (Event.contributes_of_ne hc) fun info hinfo => ⟨hinfo, id⟩
  | openWindow | beginRevealPhase => exact idle rfl rfl fun info hinfo => ⟨hinfo, id⟩
  | resetWindow =>
    apply idle rfl rfl
    intro info hinfo
    obtain ⟨hc, -, hr⟩ := View.commitment_of_reset hinfo
    exact ⟨hc, fun hn => hr.symm.trans hn⟩
  | @finalizeWindow window closed hph =>
    apply idle rfl rfl
    intro info hinfo
    cases closed with
    | false => exact ⟨View.commitment_of_penalize hinfo, id⟩
    | true =>
      obtain ⟨hc, hr⟩ := View.commitment_of_close hinfo
      exact ⟨View.commitment_of_penalize hc, fun hn => hr.symm.trans hn⟩
  | @commitReading b n commitment window =>
    rw [contributions_of_none rfl]
    by_cases hba : b = a
    · subst hba
      have hsp : (.call e (.commitReading b p n commitment) : Event contract W).spends p b =
          some n := if_pos ⟨rfl, rfl⟩
      rw [spent_of_some hsp, List.length_cons]
      exact h.commit (hnext n hsp)
    · have hsp : (.call e (.commitReading b p n commitment) : Event contract W).spends p a = none :=
        if_neg fun hq => hba hq.2
      rw [spent_of_none hsp]
      exact h.keep fun info hinfo => ⟨by simpa [update_of_ne (Ne.symm hba)] using hinfo, id⟩
  | @submitReading b n reading window closed =>
    have hco : (.call e (.submitReading b p n reading) : Event contract W).contributes p =
      some (b, n) := if_pos rfl
    rw [contributions_of_some hco]
    refine Unreplayed.keep (v := s.view p) ?_ fun info hinfo => ⟨hinfo, id⟩
    by_cases hba : b = a
    · subst hba
      have hsp : (.call e (.submitReading b p n reading) : Event contract W).spends p b =
          some n := if_pos ⟨rfl, rfl⟩
      rw [spent_of_some hsp, List.length_cons]
      have hn := hnext n hsp
      exact h.room.add hn.le (h.not_mem_next hn) fun info hinfo _ => h.ne_next hn hinfo
    · have hsp : (.call e (.submitReading b p n reading) : Event contract W).spends p a = none :=
        if_neg fun hq => hba hq.2
      rw [spent_of_none hsp]
      exact h.other hba
  | @revealReading b params window closed ha hfresh hc hph =>
    have hco : (.call e (.revealReading b p params) : Event contract W).contributes p =
      some (b, params.nonce) := if_pos rfl
    rw [contributions_of_some hco, spent_of_none rfl]
    by_cases hba : b = a
    · subst hba
      obtain ⟨hle, hnew⟩ := h.committed _ hc
      have hv : Unreplayed b (spent p b tr).length (contributions p tr)
          ((s.view p).reveal s.oracleList window (revealSub e b params) closed) :=
        h.keep fun info hinfo => ⟨(View.commitment_of_reveal hinfo).1, fun _ => hfresh⟩
      apply hv.add hle (hnew hfresh)
      intro info hinfo hn
      exact absurd rfl ((View.commitment_of_reveal hinfo).2 hn).1
    · apply (h.other hba).keep
      intro info hinfo
      obtain ⟨hc, hr⟩ := View.commitment_of_reveal hinfo
      exact ⟨hc, fun hn => (hr hn).2⟩

def View.entries (v : View) : List (Address × UInt64) :=
  ((v.window.map (·.submissions)).getD []).map fun sub => (sub.oracle, sub.nonce)

theorem Move.entries (hm : Move o e s p v c v')
    (h : v.entries = (contributions p (segment (Event.opens p) tr)).reverse) :
    v'.entries = (contributions p
      (segment (Event.opens p) (⟨(s, w), .call e c, (s', w')⟩ :: tr))).reverse := by
  have idle (hop : Event.opens p (.call e c : Event contract W) = false)
      (hco : (.call e c : Event contract W).contributes p = none) (hv : v'.entries = v.entries) :
      v'.entries = (contributions p
        (segment (Event.opens p) (⟨(s, w), .call e c, (s', w')⟩ :: tr))).reverse := by
    rw [segment_of_not hop, contributions_of_none hco, hv, h]
  have join {b : Address} {n : UInt64} (hop : Event.opens p (.call e c : Event contract W) = false)
      (hco : (.call e c : Event contract W).contributes p = some (b, n))
      (hv : v'.entries = v.entries ++ [(b, n)]) :
      v'.entries = (contributions p
        (segment (Event.opens p) (⟨(s, w), .call e c, (s', w')⟩ :: tr))).reverse := by
    rw [segment_of_not hop, contributions_of_some hco, hv, h, List.reverse_cons]
  cases hm with
  | idle hc => exact idle (Event.opens_of_ne hc) (Event.contributes_of_ne hc) rfl
  | openWindow | resetWindow =>
    rw [segment_of_opens (by simp [Event.opens])]
    rfl
  | commitReading => exact idle rfl rfl rfl
  | beginRevealPhase hph => exact idle rfl rfl (by simp [View.entries, hph.stored])
  | @submitReading b n reading window closed ha hn hst hf =>
    apply join rfl (if_pos rfl)
    cases hw : v.window with
    | some window₀ =>
      rw [hw] at hst
      have hst : window₀ = window := hst
      simp [View.entries, View.submit, directSub, hw, hst]
    | none =>
      rw [hw] at hst
      simp [View.entries, View.submit, directSub, hw, ← hst]
  | @revealReading b params window closed ha hn hc hph =>
    apply join rfl (if_pos rfl)
    cases closed <;>
      simp [View.entries, View.reveal, View.close, revealSub, hph.stored]
  | @finalizeWindow window closed hph =>
    apply idle rfl rfl
    cases closed <;> simp [View.entries, View.close, View.penalize, hph.stored]

/--
The nonces that an oracle spent in a project are the first ones in order, a
rejected call spends none, and no nonce brings two submissions. The window
holds what the calls since its start brought.
-/
structure NonceDiscipline (o : Outside W) (p : ProjectId) (a : Address)
    (tr : Trace (State × W) (Event contract W)) (sw : State × W) : Prop where
  order : (spent p a tr).map UInt64.toNat = (List.range' 1 (spent p a tr).length).reverse
  counter : (sw.1.oracleNonce (p, a)).toNat = (spent p a tr).length
  rejected : ∀ ev x, (machine contract o).step ev sw = .error x →
    (machine contract o).call sw ev = sw
  once : ∀ n, (contributions p tr).count (a, n) ≤ 1
  window : (sw.1.view p).entries = (contributions p (segment (Event.opens p) tr)).reverse

/-- What a run keeps about the nonces of an oracle. -/
structure NonceRun (p : ProjectId) (a : Address) (tr : Trace (State × W) (Event contract W))
    (s : State) : Prop where
  order : InOrder p a tr s
  unreplayed : Unreplayed a (spent p a tr).length (contributions p tr) (s.view p)

theorem nonceRun {sw : State × W} (h : (machine contract o).Run Machine.anyCall tr sw)
    (hk : (spent p a tr).length < 2 ^ 64) : NonceRun p a tr sw.1 := by
  induction h with
  | init h =>
    obtain ⟨admin, stakingToken, treasury, hs⟩ := h
    rw [(initialise_eq_ok.mp hs).2]
    refine ⟨⟨rfl, rfl⟩, ⟨?_, ?_, ?_⟩⟩
    · simp [contributions]
    · simp [contributions]
    · intro info hi
      cases hi
  | @step tr sw sw' ev hr _ hs ih =>
    have hle : (spent p a tr).length ≤ (spent p a (⟨sw, ev, sw'⟩ :: tr)).length :=
      ((List.sublist_cons_self _ _).filterMap _).length_le
    obtain ⟨hi, hu⟩ := ih (hle.trans_lt hk)
    cases ev with
    | outside u =>
      cases hs
      exact ⟨⟨hi.counter, hi.order⟩, hu⟩
    | call e c =>
      exact ⟨inOrder_execute hi hk hs, (execute_move p hs).unreplayed hs hi hk hu⟩

theorem entries_run {sw : State × W} (h : (machine contract o).Run Machine.anyCall tr sw) :
    (sw.1.view p).entries = (contributions p (segment (Event.opens p) tr)).reverse := by
  refine h.invariant (I := fun tr sw =>
    (sw.1.view p).entries = (contributions p (segment (Event.opens p) tr)).reverse) ?_ ?_
  · rintro sw ⟨admin, stakingToken, treasury, hs⟩
    rw [(initialise_eq_ok.mp hs).2]
    rfl
  · rintro tr sw (⟨e, c⟩ | w') sw' - hi - hs
    · exact (execute_move p hs).entries hi
    · cases hs
      rwa [segment_of_not rfl, contributions_of_none rfl]

/-- In a run in which an oracle spends fewer than `2 ^ 64` nonces none is used twice. -/
theorem nonces_spent_once {sw : State × W} (h : (machine contract o).Run Machine.anyCall tr sw)
    (hk : (spent p a tr).length < 2 ^ 64) : NonceDiscipline o p a tr sw := by
  obtain ⟨hi, hu⟩ := nonceRun h hk
  exact ⟨hi.order, hi.counter, fun _ _ => Machine.call_of_error, hu.once, entries_run h⟩

section Sample

/-- The oracle `1` brings a reading to the project `7`. -/
def nextReading (n : UInt64) : Event station Unit :=
  calledAt 0 1 (.submitReading (.account 1) 7 n clearWater)

def resetting : Event station Unit := calledAt 0 0 (.resetWindow (.account 0) 7)

/-- The oracle `1` may read in the empty window of the project `7`. -/
structure Cycled (n : UInt64) (s : State) : Prop where
  admin : s.admin = .account 0
  active : s.oracleActive (.account 1) = true
  config : s.config = installed.1.config
  counter : s.oracleNonce (7, .account 1) = n
  unmarked : s.oracleSubmitted (7, .account 1) = false
  window : s.windowState 7 = some (freshWindow 0)
  listed : 7 ∈ s.openProjects

theorem cycled_start : ∃ tr s, (machine station offline).Run Machine.anyCall tr (s, ()) ∧
    Cycled 0 s := by
  obtain ⟨tr, h⟩ := Machine.Reachable.calls ⟨_, .init (installed_init (o := offline))⟩
    [calledAt 0 0 (.addOracle (.account 0) (.account 1)), calledAt 0 0 (.openWindow (.account 0) 7)]
  exact ⟨tr, _, h, by rfl, by rfl, by rfl, by rfl, by rfl, by rfl, by decide⟩

def nextSubmission (n : UInt64) : ReadingSubmission :=
  { clearWater with oracle := .account 1, nonce := n, timestamp := 0 }

def withReading (n : UInt64) (s : State) : State :=
  s.recordSubmission 7 { freshWindow 0 with submissions := [nextSubmission n] } (nextSubmission n)

theorem Cycled.submit (h : Cycled n s) :
    (machine station offline).step (nextReading (n + 1)) (s, ()) =
      .ok (withReading (n + 1) s, ()) := by
  refine discard_eq_ok.mpr ⟨none, ?_⟩
  have hfree : ¬ 0 < s.config.minStake := by
    rw [h.config]
    decide
  have hquorum : ¬ s.config.minOracles.toNat ≤ 1 := by
    rw [h.config]
    decide
  simp only [State.submitReading, State.addOpenProject, State.requireOracle_eq_ok, bind_eq_ok,
    ensure_eq_ok, h.window, if_pos h.listed, Option.getD_some]
  refine ⟨(), by rfl, (), ⟨h.active, fun hs => absurd hs hfree⟩, (), by rfl, (), by rw [h.counter],
    (), h.unmarked, (), rfl, s, rfl, ?_⟩
  exact if_neg hquorum

theorem Cycled.reset (h : Cycled n s) : ∃ s',
    (machine station offline).step resetting (withReading (n + 1) s, ()) = .ok (s', ()) ∧
      Cycled (n + 1) s' := by
  have hw : (withReading (n + 1) s).windowState 7 =
      some { freshWindow 0 with submissions := [nextSubmission (n + 1)] } := by
    simp [withReading, State.recordSubmission]
  have hstep : ∃ s', (withReading (n + 1) s).resetWindow
      (.signed 0 0 (.account 0) account_ne_contract : Env station) (.account 0) 7 = .ok s' ∧
        Cycled (n + 1) s' := by
    simp only [State.resetWindow, State.requireAdmin_eq_ok, bind_eq_ok, orPanic_eq_ok, hw]
    refine ⟨_, ⟨(), ⟨by rfl, h.admin.symm⟩, _, rfl, rfl⟩, ?_⟩
    refine ⟨h.admin, h.active, h.config, ?_, ?_, ?_, h.listed⟩
    · simp [State.saveWindow, State.clearMarkers, withReading, State.recordSubmission,
        nextSubmission]
    · simp [State.saveWindow, nextSubmission]
    · simp only [State.saveWindow, update_self]
      rfl
  obtain ⟨s', hs, h'⟩ := hstep
  exact ⟨s', within_eq_ok.mpr ⟨hs, rfl⟩, h'⟩

theorem cycled_run (k : ℕ) : ∃ tr s, (machine station offline).Run Machine.anyCall tr (s, ()) ∧
    Cycled (.ofNat (k + 1)) s ∧ (.account 1, 1) ∈ contributions 7 tr := by
  have round {tr : Trace (State × Unit) (Event station Unit)} {s : State} {n : UInt64}
      (hr : (machine station offline).Run Machine.anyCall tr (s, ())) (h : Cycled n s) :
      ∃ tr' s', (machine station offline).Run Machine.anyCall tr' (s', ()) ∧ Cycled (n + 1) s' ∧
        contributions 7 tr' = (.account 1, n + 1) :: contributions 7 tr := by
    obtain ⟨s', hs, h'⟩ := h.reset
    refine ⟨_, s', (hr.step trivial h.submit).step trivial hs, h', ?_⟩
    rw [contributions_of_none rfl, contributions_of_some (n := n + 1) rfl]
  induction k with
  | zero =>
    obtain ⟨tr, s, hr, h⟩ := cycled_start
    obtain ⟨tr', s', hr', h', hc⟩ := round hr h
    exact ⟨tr', s', hr', h', hc ▸ List.mem_cons_self⟩
  | succ k ih =>
    obtain ⟨tr, s, hr, h, hm⟩ := ih
    obtain ⟨tr', s', hr', h', hc⟩ := round hr h
    have hn : UInt64.ofNat (k + 1) + 1 = UInt64.ofNat (k + 1 + 1) :=
      UInt64.toNat_inj.mp (by simp [UInt64.toNat_add])
    exact ⟨tr', s', hr', hn ▸ h', hc ▸ List.mem_cons_of_mem _ hm⟩

/-- After `2 ^ 64` readings the nonce `1` comes again. -/
theorem nonce_comes_again : ∃ tr sw, (machine station offline).Run Machine.anyCall tr sw ∧
    ¬ NonceDiscipline offline 7 (.account 1) tr sw := by
  obtain ⟨tr, s, hr, h, hm⟩ := cycled_run (2 ^ 64 - 1)
  have hn : UInt64.ofNat (2 ^ 64 - 1 + 1) + 1 = 1 := by rfl
  refine ⟨_, _, hr.step trivial h.submit, fun hd => ?_⟩
  have hle := hd.once 1
  rw [contributions_of_some (n := 1) (by rw [hn]; rfl), List.count_cons_self] at hle
  have hpos := List.count_pos_iff.mpr hm
  omega

/-- The oracle `1` commits to a reading and reveals it. -/
theorem nonces_spent_once_revealed : ∃ tr sw,
    (machine station offline).Run Machine.anyCall tr sw ∧
      contributions 7 tr = [(.account 1, 1)] ∧ NonceDiscipline offline 7 (.account 1) tr sw := by
  have h := (Machine.Run.init (G := Machine.anyCall) (installed_init (o := offline))).call
    (l := calledAt 0 0 (.addOracle (.account 0) (.account 1))) trivial (by rfl)
  have h := h.call (l := calledAt 0 0 (.openWindow (.account 0) 7)) trivial (by rfl)
  have h := h.call (l := calledAt 0 1 (.commitReading (.account 1) 7 1 0)) trivial (by rfl)
  have h := h.call (l := calledAt 300 9 (.beginRevealPhase 7)) trivial (by rfl)
  have h := h.call (l := clearReveal) trivial (by rfl)
  exact ⟨_, _, h, by rfl, nonces_spent_once h (by decide)⟩

end Sample

end WaterCredits.Oracle
