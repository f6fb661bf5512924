import Mio.Lib.Outcome

/-! The loops by which `Channel.cpp` reads, over any indexes and times and any way to look at the store. -/
namespace Mio.Datastore

/-- How code asks for tiles, and how it ends without a result. -/
structure Reader (m : Type → Type) (Index Tile : Type) where
  hasTile : Index → m Bool
  /-- `assert(read_tile(ti, tile))`. -/
  readTile : Index → m Tile
  assert : (p : Prop) → [Decidable p] → String → m Unit
  timeout {α : Type} : m α

namespace Reader

variable {m : Type → Type} [Monad m] {Index Time Tile S : Type} (r : Reader m Index Tile)

/-- Down from an index, as long as there is reason to and the child is there. -/
def descend (goOn isNull : Index → Bool) (child : Index → Index) : ℕ → Index → m Index
  | 0, _ => r.timeout
  | fuel + 1, ti =>
      if goOn ti then
        if isNull (child ti) then return ti
        else do
          if ← r.hasTile (child ti) then descend goOn isNull child fuel (child ti)
          else return ti
      else return ti

def find (goOn isNull : Index → Bool) (child : Index → Index) (fuel : ℕ) (ti : Index) : m Index := do
  r.assert (¬ isNull ti) "!ti.is_null()"
  r.descend goOn isNull child fuel ti

/-- The loop of `read_tiles_in_range`: `ti` is the tile visited last, and the result lists all tiles that are
handed to the callback, which sees those handed over so far. -/
def readTiles (next : ℕ → Index → m Index) (done : Index → Bool) (callback : List (Index × Tile) → Bool) :
    ℕ → Index → List (Index × Tile) → m (List (Index × Tile))
  | 0, _, _ => r.timeout
  | fuel + 1, ti, handed => do
      let ti ← next fuel ti
      if done ti then return handed
      else do
        let t ← r.readTile ti
        if callback (handed ++ [(ti, t)]) then readTiles next done callback fuel ti (handed ++ [(ti, t)])
        else return handed ++ [(ti, t)]

/-- The loop of `read_data`, from the tile at a time to the one at its end. -/
def readData (before : Time → Bool) (find : ℕ → Time → m Index) (isNull : Index → Bool) (wanted : Tile → List S)
    (endTime : Index → Time) : ℕ → Time → List S → m (List S)
  | 0, _, _ => r.timeout
  | fuel + 1, time, data =>
      if before time then do
        let ti ← find fuel time
        if isNull ti then return data
        else do
          let tile ← r.readTile ti
          readData before find isNull wanted endTime fuel (endTime ti) (data ++ wanted tile)
      else return data

/-- `read_tile_or_closest_ancestor`, once the root is known; none for false. -/
def closest [DecidableEq Index] (isAncestorOf : Index → Index → Bool) (descend : Index → m Index)
    (root ti : Index) : m (Option (Index × Tile)) :=
  if isAncestorOf ti root then do
    let tile ← r.readTile root
    return some (root, tile)
  else if ti ≠ root ∧ ¬ isAncestorOf root ti then return none
  else do
    let there ← r.hasTile root
    r.assert there "tile_exists(root)"
    let ret ← descend root
    let tile ← r.readTile ret
    return some (ret, tile)

/-- Where the store is at hand, no question is asked. -/
theorem descend_succ {ε : Type} {r : Reader (Outcome ε) Index Tile} {has : Index → Bool}
    (asks : ∀ i, r.hasTile i = .ret (has i)) (goOn isNull : Index → Bool) (child : Index → Index) (fuel : ℕ)
    (ti : Index) : r.descend goOn isNull child (fuel + 1) ti =
      if goOn ti then
        if isNull (child ti) ∨ ¬ has (child ti) then .ret ti else r.descend goOn isNull child fuel (child ti)
      else .ret ti := by
  rw [descend, asks, Outcome.ret_bind]
  cases goOn ti <;> cases isNull (child ti) <;> cases has (child ti) <;> rfl

section Settles
variable {ε : Type} {r : Reader (Outcome ε) Index Tile}

theorem descend_settles (ends : r.timeout (α := Index) = .timeout) (goOn isNull : Index → Bool)
    (child : Index → Index) (ti : Index) : Outcome.Settles fun fuel => r.descend goOn isNull child fuel ti := by
  intro n a ret
  induction n generalizing ti with
  | zero => cases ends.symm.trans ret
  | succ n ih =>
      dsimp only [descend] at ret ⊢
      split at ret
      · next go =>
          rw [if_pos go]
          split at ret
          · next null => rwa [if_pos null]
          · next proper =>
              rw [if_neg proper]
              obtain ⟨there, asked, rest⟩ := Outcome.bind_eq_ret.mp ret
              refine Outcome.bind_eq_ret.mpr ⟨there, asked, ?_⟩
              split at rest
              · next has =>
                  rw [if_pos has]
                  exact ih _ rest
              · next absent => rwa [if_neg absent]
      · next stop => rwa [if_neg stop]

theorem find_settles (ends : r.timeout (α := Index) = .timeout) (goOn isNull : Index → Bool)
    (child : Index → Index) (ti : Index) : Outcome.Settles fun fuel => r.find goOn isNull child fuel ti := by
  intro n a ret
  obtain ⟨u, checked, found⟩ := Outcome.bind_eq_ret.mp ret
  exact Outcome.bind_eq_ret.mpr ⟨u, checked, descend_settles ends goOn isNull child ti n a found⟩

theorem readTiles_settles (ends : r.timeout (α := List (Index × Tile)) = .timeout)
    {next : ℕ → Index → Outcome ε Index} (settles : ∀ ti, Outcome.Settles fun fuel => next fuel ti)
    (done : Index → Bool) (callback : List (Index × Tile) → Bool) (ti : Index) (handed : List (Index × Tile)) :
    Outcome.Settles fun fuel => r.readTiles next done callback fuel ti handed := by
  intro n a ret
  induction n generalizing ti handed with
  | zero => cases ends.symm.trans ret
  | succ n ih =>
      obtain ⟨ti', found, rest⟩ := Outcome.bind_eq_ret.mp ret
      refine Outcome.bind_eq_ret.mpr ⟨ti', settles ti n ti' found, ?_⟩
      split at rest
      · next last => rwa [if_pos last]
      · next going =>
          rw [if_neg going]
          obtain ⟨tile, read, rest⟩ := Outcome.bind_eq_ret.mp rest
          refine Outcome.bind_eq_ret.mpr ⟨tile, read, ?_⟩
          split at rest
          · next more =>
              rw [if_pos more]
              exact ih _ _ rest
          · next stop => rwa [if_neg stop]

theorem readData_settles (ends : r.timeout (α := List S) = .timeout) {find : ℕ → Time → Outcome ε Index}
    (settles : ∀ time, Outcome.Settles fun fuel => find fuel time) (before : Time → Bool) (isNull : Index → Bool)
    (wanted : Tile → List S) (endTime : Index → Time) (time : Time) (data : List S) :
    Outcome.Settles fun fuel => r.readData before find isNull wanted endTime fuel time data := by
  intro n a ret
  induction n generalizing time data with
  | zero => cases ends.symm.trans ret
  | succ n ih =>
      dsimp only [readData] at ret ⊢
      split at ret
      · next early =>
          rw [if_pos early]
          obtain ⟨ti, found, rest⟩ := Outcome.bind_eq_ret.mp ret
          refine Outcome.bind_eq_ret.mpr ⟨ti, settles time n ti found, ?_⟩
          split at rest
          · next null => rwa [if_pos null]
          · next proper =>
              rw [if_neg proper]
              obtain ⟨tile, read, rest⟩ := Outcome.bind_eq_ret.mp rest
              exact Outcome.bind_eq_ret.mpr ⟨tile, read, ih _ _ rest⟩
      · next late => rwa [if_neg late]

end Settles

end Reader

section
variable {m m' : Type → Type} [Monad m] [Monad m'] {σ Index Time Tile S : Type} {r : Reader m Index Tile}
  {r' : σ → Reader m' Index Tile} {Rel : {α : Type} → m α → (σ → m' α) → Prop}

/-- A relation between code and code over a state, which holds between two readers and goes through all
code. -/
structure Reader.Related (r : Reader m Index Tile) (r' : σ → Reader m' Index Tile)
    (Rel : {α : Type} → m α → (σ → m' α) → Prop) : Prop where
  pure {α : Type} (a : α) : Rel (pure a) fun _ => pure a
  bind {α β : Type} {x : m α} {y : σ → m' α} {f : α → m β} {g : α → σ → m' β} (first : Rel x y)
    (next : ∀ a, Rel (f a) (g a)) : Rel (x >>= f) fun s => y s >>= fun a => g a s
  hasTile (i : Index) : Rel (r.hasTile i) fun s => (r' s).hasTile i
  readTile (i : Index) : Rel (r.readTile i) fun s => (r' s).readTile i
  assert (p : Prop) [Decidable p] (what : String) : Rel (r.assert p what) fun s => (r' s).assert p what
  timeout {α : Type} : Rel (r.timeout (α := α)) fun s => (r' s).timeout

namespace Reader.Related

theorem descend (h : r.Related r' Rel) (goOn isNull : Index → Bool) (child : Index → Index) (fuel : ℕ) (ti : Index) :
    Rel (r.descend goOn isNull child fuel ti) fun s => (r' s).descend goOn isNull child fuel ti := by
  induction fuel generalizing ti with
  | zero => exact h.timeout
  | succ fuel ih =>
      simp only [Reader.descend]
      cases goOn ti with
      | false => exact h.pure ti
      | true =>
          cases isNull (child ti) with
          | true => exact h.pure ti
          | false =>
              refine h.bind (h.hasTile _) fun there => ?_
              cases there with
              | false => exact h.pure ti
              | true => exact ih (child ti)

theorem find (h : r.Related r' Rel) (goOn isNull : Index → Bool) (child : Index → Index) (fuel : ℕ) (ti : Index) :
    Rel (r.find goOn isNull child fuel ti) fun s => (r' s).find goOn isNull child fuel ti :=
  h.bind (h.assert _ _) fun _ => h.descend goOn isNull child fuel ti

theorem readTiles (h : r.Related r' Rel) {next : ℕ → Index → m Index} (next' : σ → ℕ → Index → m' Index)
    (found : ∀ fuel ti, Rel (next fuel ti) fun s => next' s fuel ti) (done : Index → Bool)
    (callback : List (Index × Tile) → Bool) (fuel : ℕ) (ti : Index) (handed : List (Index × Tile)) :
    Rel (r.readTiles next done callback fuel ti handed) fun s =>
      (r' s).readTiles (next' s) done callback fuel ti handed := by
  induction fuel generalizing ti handed with
  | zero => exact h.timeout
  | succ fuel ih =>
      refine h.bind (found fuel ti) fun ti => ?_
      cases done ti with
      | true => exact h.pure handed
      | false =>
          refine h.bind (h.readTile ti) fun tile => ?_
          cases callback (handed ++ [(ti, tile)]) with
          | true => exact ih ti _
          | false => exact h.pure _

theorem readData (h : r.Related r' Rel) {find : ℕ → Time → m Index} (find' : σ → ℕ → Time → m' Index)
    (found : ∀ fuel time, Rel (find fuel time) fun s => find' s fuel time) (before : Time → Bool)
    (isNull : Index → Bool) (wanted : Tile → List S) (endTime : Index → Time) (fuel : ℕ) (time : Time)
    (data : List S) :
    Rel (r.readData before find isNull wanted endTime fuel time data) fun s =>
      (r' s).readData before (find' s) isNull wanted endTime fuel time data := by
  induction fuel generalizing time data with
  | zero => exact h.timeout
  | succ fuel ih =>
      simp only [Reader.readData]
      cases before time with
      | false => exact h.pure data
      | true =>
          refine h.bind (found fuel time) fun ti => ?_
          cases isNull ti with
          | true => exact h.pure data
          | false => exact h.bind (h.readTile ti) fun tile => ih _ _

theorem closest [DecidableEq Index] (h : r.Related r' Rel) {descend : Index → m Index}
    (descend' : σ → Index → m' Index) (found : ∀ root, Rel (descend root) fun s => descend' s root)
    (isAncestorOf : Index → Index → Bool) (root ti : Index) :
    Rel (r.closest isAncestorOf descend root ti) fun s =>
      (r' s).closest isAncestorOf (descend' s) root ti := by
  have ending : ∀ i, Rel (do let tile ← r.readTile i; return some (i, tile)) fun s => do
      let tile ← (r' s).readTile i
      return some (i, tile) := fun i => h.bind (h.readTile i) fun tile => h.pure (some (i, tile))
  simp only [Reader.closest]
  cases isAncestorOf ti root with
  | true => exact ending root
  | false =>
      by_cases outside : ti ≠ root ∧ ¬ isAncestorOf root ti
      · simp only [if_pos outside]
        exact h.pure none
      · simp only [if_neg outside]
        exact h.bind (h.hasTile root) fun there => h.bind (h.assert _ _) fun _ =>
          h.bind (found root) ending

end Reader.Related
end
end Mio.Datastore
