import MixSim.Simulator.AppMixSim

/-!
# The prefixes of `AppMixSim`

The attribute `Prefixes` is a list of names, one text with `$` between them. `registerFib` walks through
it once and adds a route for each piece. It reads the list as it was written: the pieces are the only
texts without `$` that give the attribute when they are joined (`registerFib_pieces`), empty pieces
included, and the routes are added in their order up to the first that is no name.
-/

namespace MixSim

/-- The character `$`. -/
def dollar : UInt8 := 36

namespace NdnCxx

variable {N : Type} (X : NdnCxx N)

/-- `FibHelper::AddRoute(GetNode(), text, m_face, 0)`: the text becomes a `Name`. -/
def addRoute (text : List UInt8) : Except Fault N :=
  match X.ofUri text with
  | none => .error .uncaught
  | some name => .ok name

/-- `std::string(buf + last, idx - last)`. -/
def piece (buf : List UInt8) (last idx : ℕ) : List UInt8 := (buf.drop last).take (idx - last)

/-- The loop of `registerFib` with `n` rounds to go, and the last route. -/
def registerFrom (buf : List UInt8) : ℕ → ℕ → Except Fault (List N)
  | 0, last => do
      let route ← X.addRoute (piece buf last buf.length)
      .ok [route]
  | n + 1, last =>
      let idx := buf.length - (n + 1)
      match buf[idx]? with
      | none => .error .outOfBounds
      | some b =>
          if b = dollar then do
            let route ← X.addRoute (piece buf last idx)
            let routes ← registerFrom buf n (idx + 1)
            .ok (route :: routes)
          else registerFrom buf n last

/-- The names of the routes that `registerFib` adds. Where the size of the text is a negative `int` there
is no round, and the length of the last piece is none of a `std::string`. -/
def registerFib (prefixes : List UInt8) : Except Fault (List N) :=
  let len := asInt prefixes.length
  if len = 0 then .ok []
  else if len < 0 then .error .uncaught
  else X.registerFrom (prefixes.take len.toNat) len.toNat 0

/-! ### The pieces -/

variable {X} {buf prefixes : List UInt8} {last idx n : ℕ} {b : UInt8}

theorem piece_self (buf : List UInt8) (idx : ℕ) : piece buf idx idx = [] := by simp [piece]

theorem piece_succ (hle : last ≤ idx) (hb : buf[idx]? = some b) :
    piece buf last (idx + 1) = piece buf last idx ++ [b] := by
  have hsub : idx + 1 - last = idx - last + 1 := by omega
  have hget : (buf.drop last)[idx - last]? = some b := by
    rw [List.getElem?_drop, Nat.add_sub_cancel' hle, hb]
  rw [piece, piece, hsub, List.take_add_one, hget]
  rfl

/-- From a round on, the loop adds a route for each piece of what is left, the first of which began at
`last`. -/
theorem registerFrom_eq (hn : n ≤ buf.length) (hle : last ≤ buf.length - n) :
    X.registerFrom buf n last =
      (((buf.drop (buf.length - n)).splitOn dollar).modifyHead
        (piece buf last (buf.length - n) ++ ·)).mapM X.addRoute := by
  induction n generalizing last with
  | zero =>
    simp [registerFrom]
    rfl
  | succ n ih =>
    set idx := buf.length - (n + 1) with hidx
    have hlt : idx < buf.length := by omega
    have hnext : buf.length - n = idx + 1 := by omega
    have hget : buf[idx]? = some buf[idx] := List.getElem?_eq_getElem hlt
    rw [List.drop_eq_getElem_cons hlt, List.splitOn_cons_eq_if_modifyHead]
    simp only [registerFrom, ← hidx, hget]
    by_cases hb : buf[idx] = dollar
    · -- the piece ends here, and the next one is empty so far
      have hempty : ∀ texts : List (List UInt8), texts.modifyHead ([] ++ ·) = texts := by
        intro texts
        cases texts <;> rfl
      rw [if_pos hb, if_pos (by simpa using hb), List.modifyHead_cons, List.append_nil,
        List.mapM_cons, ih (by omega) (by omega), hnext, piece_self, hempty]
      rfl
    · rw [if_neg hb, if_neg (by simpa using hb), ih (by omega) (by omega), hnext,
        piece_succ hle hget, List.modifyHead_modifyHead]
      congr 2
      funext text
      simp

/-- A list of prefixes as it is written into the attribute. -/
structure Pieces (prefixes : List UInt8) (texts : List (List UInt8)) : Prop where
  ne_nil : texts ≠ []
  noDollar : ∀ text ∈ texts, dollar ∉ text
  join : [dollar].intercalate texts = prefixes

/-- No piece contains a `$`. -/
theorem dollar_notMem {text : List UInt8} (h : text ∈ buf.splitOn dollar) : dollar ∉ text := by
  induction buf generalizing text with
  | nil =>
    rw [List.splitOn_nil, List.mem_singleton] at h
    subst h
    exact List.not_mem_nil
  | cons b buf ih =>
    obtain ⟨first, rest, hsplit⟩ := List.exists_cons_of_ne_nil (List.splitOn_ne_nil dollar buf)
    rw [List.splitOn_cons_eq_if_modifyHead, hsplit] at h
    rw [hsplit] at ih
    split_ifs at h with hb
    · rcases List.mem_cons.1 h with rfl | h
      · exact List.not_mem_nil
      · exact ih h
    · rcases List.mem_cons.1 h with rfl | h
      · have hfirst : dollar ∉ first := ih List.mem_cons_self
        simp only [beq_iff_eq] at hb
        simp [hfirst, Ne.symm hb]
      · exact ih (List.mem_cons_of_mem _ h)

theorem pieces_iff {texts : List (List UInt8)} :
    Pieces prefixes texts ↔ texts = prefixes.splitOn dollar := by
  constructor
  · rintro ⟨hne, hdollar, rfl⟩
    exact (List.splitOn_intercalate dollar hdollar hne).symm
  · rintro rfl
    exact ⟨List.splitOn_ne_nil _ _, fun _ h => dollar_notMem h, List.intercalate_splitOn _⟩

/-- `registerFib` reads the attribute as the one list of prefixes that it can stand for, and adds the
routes of this list in its order. -/
theorem registerFib_pieces (hne : prefixes ≠ []) (hlen : prefixes.length < 2 ^ 31) :
    (∃! texts, Pieces prefixes texts) ∧
      ∀ texts, Pieces prefixes texts → X.registerFib prefixes = texts.mapM X.addRoute := by
  refine ⟨⟨_, pieces_iff.2 rfl, fun _ h => pieces_iff.1 h⟩, fun texts h => ?_⟩
  have hpos : 0 < prefixes.length := List.length_pos_of_ne_nil hne
  have hloop : X.registerFrom prefixes prefixes.length 0 = _ :=
    registerFrom_eq le_rfl (Nat.zero_le _)
  rw [pieces_iff.1 h, registerFib, asInt_of_lt hlen]
  simp only [Int.toNat_natCast, List.take_length]
  rw [if_neg (by omega), if_neg (by omega), hloop, Nat.sub_self, piece_self, List.drop_zero]
  cases prefixes.splitOn dollar <;> rfl

/-- `/a$$/b` stands for three prefixes, the second of them empty. -/
theorem registerFib_pieces_three :
    registerFib (N := List UInt8) ⟨id, some, fun n _ => n, fun _ => none, id, id⟩ [47, 97, 36, 36, 47, 98] =
      .ok [[47, 97], [], [47, 98]] := by
  have hpieces : Pieces [47, 97, 36, 36, 47, 98] [[47, 97], [], [47, 98]] :=
    ⟨by simp, by decide, by decide⟩
  exact (registerFib_pieces (by simp) (by decide)).2 _ hpieces

end NdnCxx

end MixSim
