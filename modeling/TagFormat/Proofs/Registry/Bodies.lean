import TagFormat.Proofs.Input.Readers
import TagFormat.Proofs.Registry.Declared
import TagFormat.Proofs.Tag.Holding

/-! # Bodies that readers of any make load

What a reader of any make loads as a versioned value starts with the version that it tells and takes
all of the declared size (`Body.loaded_of_load`), and a version that is not supported is refused as
soon as it has been read (`Body.load_of_unsupported`). Where the reader of the current version reads
back what was written, the value comes back as a current one, and stays so
(`Body.Keeps.upgrades`). -/

namespace TagFormat

open Reading

variable {α β : Type}

namespace Body

variable {b : Body α} {read : UInt16 → Reader β} {n : Nat} {stops : List Nat} {s t : Source}
  {rest : Bytes} {version : UInt16} {v : Versioned β}

/-- Reads a version, and lets a reader read the body of that version. -/
def loadBody (b : Body α) (read : UInt16 → Reader β) : Reader (Versioned β) :=
  Reader.bind b.expectVersion.run fun version => (read version).map (Versioned.mk version)

/-- Reads a version, and lets a reader read the body of that version, in exactly the declared
size. -/
def load (b : Body α) (read : UInt16 → Reader β) (declared : Declared) : Reader (Versioned β) :=
  Reader.framed what 2 declared fun _ => b.loadBody read

/-- The programs of a body read as a reader does whose bodies they agree with. -/
theorem agrees_load {inner : Inner} {v : Versioned α} {f : β → α}
    (h : ∀ version, (read version).Agrees f (b.readOver version inner v.inner))
    (declared : Declared) :
    (b.load read declared).Agrees (Versioned.map f) (b.readVersionedOver inner declared v) := by
  refine Reader.Agrees.framed fun _ stops s => ?_
  change (uint16.bind fun version => if b.supports version = true then
    (b.readOver version inner v.inner).bind fun a => .done (Versioned.mk version a)
    else .fail (.format (.unsupportedVersion what version.toNat))).run stops s = _
  have hbody : ∀ version, ((read version).map (Versioned.mk version)).Agrees (Versioned.map f)
      ((b.readOver version inner v.inner).bind fun a => .done (Versioned.mk version a)) :=
    fun version => (h version).map fun _ => rfl
  unfold loadBody Reader.map Reader.bind
  rw [expectVersion, run_bind, run_bind]
  rcases uint16.run stops s with ⟨error | version, t⟩
  · rfl
  by_cases hv : b.supports version = true
  · simp only [if_pos hv, run, hbody version stops t]
    rfl
  · simp only [if_neg hv, run]

/-- The programs of a body are readers. -/
theorem run_readVersionedOver (b : Body α) (inner : Inner) (declared : Declared) (v : Versioned α)
    (stops : List Nat) (s : Source) : (b.readVersionedOver inner declared v).run stops s =
      b.load (fun version => (b.readOver version inner v.inner).run) declared stops s := by
  have hagrees := agrees_load (fun version => Reader.agrees_run (b.readOver version inner v.inner))
    declared stops s
  rwa [show Versioned.map (id : α → α) = id from rfl, Reader.map_id] at hagrees

/-! ### The version -/

theorem run_expectVersion (hs : s.rest = BigEndian.encode 2 version.toNat ++ rest)
    (hstops : ∀ stop ∈ stops, s.pos + 2 ≤ stop) : b.expectVersion.run stops s =
      if b.supports version = true then (.ok version, s.advance 2)
      else (.error (.format (.unsupportedVersion what version.toNat)), s.advance 2) := by
  have hrun : uint16.run stops s = (.ok version, s.advance 2) :=
    run_of_yields hs hstops (yields_uint16.mpr rfl)
  rw [expectVersion, run_bind_of_ok hrun]
  split_ifs <;> rfl

theorem of_expectVersion (hstops : ∀ stop ∈ stops, s.pos ≤ stop)
    (h : b.expectVersion.run stops s = (.ok version, t)) : b.supports version = true ∧
      t = s.advance 2 ∧ ∃ rest, s.rest = BigEndian.encode 2 version.toNat ++ rest := by
  obtain ⟨m, hm, rfl, -, hy⟩ := (run_eq_ok_iff hstops).mp h
  obtain ⟨version', c, hc, hif⟩ := yields_bind_uint16.mp hy
  by_cases hv : b.supports version' = true
  · rw [if_pos hv] at hif
    obtain ⟨rfl, rfl⟩ := yields_done.mp hif
    rw [List.append_nil] at hc
    have hlen := congrArg List.length hc
    rw [BigEndian.length_encode, List.length_take, Nat.min_eq_left hm] at hlen
    refine ⟨hv, by rw [hlen], s.rest.drop m, ?_⟩
    rw [← hc, List.take_append_drop]
  · rw [if_neg hv] at hif
    exact hif.elim

theorem load_of_le (hn : 2 ≤ n) : b.load read (.exact n) stops s =
    leave what n (s.pos + n) (b.loadBody read ((s.pos + n) :: stops) s) := by
  rw [load, Reader.framed_of_le hn, Reader.exactly]

/-- **A version that is not supported** is refused where it has been read, whatever follows. -/
theorem load_of_unsupported (hn : 2 ≤ n) (hs : s.rest = BigEndian.encode 2 version.toNat ++ rest)
    (hstops : ∀ stop ∈ stops, s.pos + 2 ≤ stop) (hv : b.supports version = false) :
    b.load read (.exact n) stops s =
      (.error (.format (.unsupportedVersion what version.toNat)), s.advance 2) := by
  have hfit : ∀ stop ∈ (s.pos + n) :: stops, s.pos + 2 ≤ stop :=
    List.forall_mem_cons.mpr ⟨by omega, hstops⟩
  have hversion := run_expectVersion (b := b) hs hfit
  rw [if_neg (by rw [hv]; decide)] at hversion
  rw [load_of_le hn, loadBody, Reader.bind_of_error hversion]
  rfl

/-- A payload is given by the bytes of a version that is supported, and by those from which the body
of this version is read in a frame that ends with them. -/
theorem gives_load {bytes : Bytes} {a : β} (hv : b.supports version = true)
    (h : ∀ (stops : List Nat) (s : Source) (rest : Bytes), s.rest = bytes ++ rest →
      (∀ stop ∈ stops, s.pos + bytes.length ≤ stop) →
        read version ((s.pos + bytes.length) :: stops) s = (.ok a, s.advance bytes.length))
    (hn : 2 + bytes.length = n) :
    (b.load read (.exact n)).Gives (BigEndian.encode 2 version.toNat ++ bytes) ⟨version, a⟩ := by
  subst hn
  intro stops s rest hs hstops
  rw [List.append_assoc] at hs
  rw [List.length_append, BigEndian.length_encode] at hstops ⊢
  have hfit : ∀ stop ∈ (s.pos + (2 + bytes.length)) :: stops, s.pos + 2 ≤ stop :=
    List.forall_mem_cons.mpr ⟨by omega, fun stop hmem => by
      have := hstops stop hmem
      omega⟩
  have hversion := run_expectVersion (b := b) hs hfit
  rw [if_pos hv] at hversion
  have hrest : (s.advance 2).rest = bytes ++ rest := by
    rw [← BigEndian.length_encode 2 version.toNat]
    exact Source.rest_advance hs
  have hbody := h stops (s.advance 2) rest hrest fun stop hmem => by
    have := hstops stop hmem
    rw [Source.advance_pos]
    omega
  rw [Source.advance_pos, Source.advance_advance, Nat.add_assoc] at hbody
  rw [load_of_le (by omega), loadBody, Reader.bind_of_ok hversion,
    Reader.map_eq_ok_iff.mpr ⟨a, hbody, rfl⟩]
  exact leave_eq_ok_iff.mpr ⟨rfl, rfl⟩

theorem makes_load {P : β → Prop} (h : ∀ version, (read version).Makes P) (declared : Declared) :
    (b.load read declared).Makes fun v => P v.inner :=
  .framed fun _ => .after fun version => (h version).map fun _ ha => ha

end Body

/-! ### What was loaded -/

namespace Body

variable {b : Body α} {read : UInt16 → Reader α} {n : Nat} {stops : List Nat} {s t : Source}
  {rest : Bytes} {version : UInt16} {v : Versioned α}

/-- What it means that a payload of `n` bytes was read: it starts with the version that is told,
which is supported, and the reader of this version has taken all the rest of it. -/
structure Loaded (b : Body α) (read : UInt16 → Reader α) (n : Nat) (stops : List Nat) (s : Source)
    (v : Versioned α) (t : Source) : Prop where
  supported : b.supports v.version = true
  bytes : ∃ body rest, s.rest = BigEndian.encode 2 v.version.toNat ++ (body ++ rest) ∧
    2 + body.length = n
  inner : read v.version ((s.pos + n) :: stops) (s.advance 2) = (.ok v.inner, s.advance n)
  source : t = s.advance n

theorem loaded_of_load (hread : ∀ version, (read version).Stays)
    (hstops : ∀ stop ∈ stops, s.pos ≤ stop) (h : b.load read (.exact n) stops s = (.ok v, t)) :
    b.Loaded read n stops s v t := by
  have hn : 2 ≤ n := by
    by_contra hn
    have hsize : (Declared.exact n).atLeast what 2 = .error (.format (.tooShort what 2 n)) :=
      if_pos (by omega)
    rw [load, Reader.framed, hsize] at h
    cases h
  rw [load_of_le hn, leave_eq_ok_iff] at h
  obtain ⟨h, hpos⟩ := h
  have hfit : ∀ stop ∈ (s.pos + n) :: stops, s.pos ≤ stop :=
    List.forall_mem_cons.mpr ⟨by omega, hstops⟩
  rw [loadBody] at h
  rcases hversion : b.expectVersion.run ((s.pos + n) :: stops) s with ⟨error | version, u⟩
  · rw [Reader.bind_of_error hversion] at h
    cases h
  obtain ⟨hv, rfl, rest, hs⟩ := of_expectVersion hfit hversion
  obtain ⟨m, hm, hend, -⟩ := hread version ((s.pos + n) :: stops) (s.advance 2)
  rw [Reader.bind_of_ok hversion, Reader.map_eq_ok_iff] at h
  obtain ⟨a, hbody, rfl⟩ := h
  -- the reader came to the end of the frame
  rw [hbody] at hend
  obtain rfl : t = (s.advance 2).advance m := hend
  rw [Source.advance_pos, Source.advance_pos] at hpos
  rw [Source.advance_advance] at hbody ⊢
  obtain rfl : n = 2 + m := by omega
  have hrest : (s.advance 2).rest = rest := by
    rw [← BigEndian.length_encode 2 version.toNat]
    exact Source.rest_advance hs
  rw [hrest] at hm
  refine ⟨hv, ⟨rest.take m, rest.drop m, ?_, ?_⟩, hbody, rfl⟩
  · rw [List.take_append_drop, hs]
  · rw [List.length_take]
    omega

/-- **A reader that does not use up the frame**, or would go on beyond it, comes to no value. -/
theorem load_of_ne (hread : ∀ version, (read version).Stays)
    (hstops : ∀ stop ∈ stops, s.pos ≤ stop)
    (hs : s.rest = BigEndian.encode 2 version.toNat ++ rest)
    (hend : (read version ((s.pos + n) :: stops) (s.advance 2)).2 ≠ s.advance n) :
    ∃ error, (b.load read (.exact n) stops s).1 = .error error := by
  rcases hload : b.load read (.exact n) stops s with ⟨error | v, t⟩
  · exact ⟨error, rfl⟩
  obtain ⟨-, ⟨body, rest', hs', -⟩, hinner, -⟩ := loaded_of_load hread hstops hload
  have hsame : version = v.version :=
    ((yields_uint16.mpr rfl).eq_of_append_eq (yields_uint16.mpr rfl) (hs.symm.trans hs')).2
  rw [hsame, hinner] at hend
  exact absurd rfl hend

/-! ### Writing and reading again -/

/-- The value `a` is written into as many bytes as it says, and from these the reader of the current
version reads `a'`, which is equal to `a` so far that it is written like it. -/
structure Keeps (b : Body α) (read : UInt16 → Reader α) (a a' : α) : Prop where
  supported : b.supports b.current = true
  written : (b.writing a).failure = none
  size : (b.writing a).bytes.length = b.size a
  reads : ∀ (stops : List Nat) (s : Source) (rest : Bytes),
    s.rest = (b.writing a).bytes ++ rest → (∀ stop ∈ stops, s.pos + b.size a ≤ stop) →
      read b.current ((s.pos + b.size a) :: stops) s = (.ok a', s.advance (b.size a))
  alike : b.writing a' = b.writing a ∧ b.size a' = b.size a

/-- A versioned value is written in the current version, whatever version it was read in, into as
many bytes as it says. From these `a` is read in the current version, which is written into the same
bytes. -/
structure Upgrades (b : Body α) (read : UInt16 → Reader α) (v : Versioned α) (a : α)
    (bytes : Bytes) : Prop where
  written : (b.versionedWriting v).toBytes = .ok bytes
  current : bytes = BigEndian.encode 2 b.current.toNat ++ (b.writing v.inner).bytes
  size : bytes.length = b.versionedSize v
  reads : (b.load read (.exact bytes.length)).Gives bytes (b.upToDate a)
  again : (b.versionedWriting (b.upToDate a)).toBytes = .ok bytes

variable {a a' : α}

theorem keeps_of_yields {inner : Inner} {a₀ : α} (hs : b.supports b.current = true)
    (hf : (b.writing a).failure = none) (hsize : (b.writing a).bytes.length = b.size a)
    (hy : ∀ left, (b.readOver b.current inner a₀).Yields left (b.writing a).bytes a')
    (ha : b.writing a' = b.writing a ∧ b.size a' = b.size a) :
    b.Keeps (fun version => (b.readOver version inner a₀).run) a a' := by
  refine ⟨hs, hf, hsize, fun stops s rest hrest hstops => ?_, ha⟩
  rw [← hsize] at hstops ⊢
  exact run_of_yields hrest (List.forall_mem_cons.mpr ⟨Nat.le_refl _, hstops⟩) (hy _)

theorem Keeps.again (h : b.Keeps read a a') : b.Keeps read a' a' := by
  obtain ⟨hwriting, hsize⟩ := h.alike
  refine ⟨h.supported, ?_, ?_, ?_, rfl, rfl⟩
  · rw [hwriting]
    exact h.written
  · rw [hwriting, hsize]
    exact h.size
  · rw [hwriting, hsize]
    exact h.reads

theorem Keeps.upgrades (h : b.Keeps read v.inner a) : b.Upgrades read v a
    (BigEndian.encode 2 b.current.toNat ++ (b.writing v.inner).bytes) := by
  have hwritten : ∀ w : Versioned α, b.writing w.inner = b.writing v.inner →
      (b.versionedWriting w).toBytes =
        .ok (BigEndian.encode 2 b.current.toNat ++ (b.writing v.inner).bytes) := by
    intro w hw
    have hf : (b.versionedWriting w).failure = none := by
      rw [versionedWriting, hw]
      exact Writing.failure_append_eq_none.mpr ⟨rfl, h.written⟩
    rw [Writing.toBytes_of_none hf, versionedWriting, Writing.bytes_append (by rfl), hw,
      Writing.uint16, Writing.bytes_block]
  have hlength : (BigEndian.encode 2 b.current.toNat ++ (b.writing v.inner).bytes).length =
      2 + b.size v.inner := by
    rw [List.length_append, BigEndian.length_encode, h.size]
  refine ⟨hwritten v rfl, rfl, hlength, ?_, hwritten (b.upToDate a) h.alike.1⟩
  refine gives_load h.supported (fun stops s rest => ?_) (by rw [hlength, h.size])
  rw [h.size]
  exact h.reads stops s rest

end Body

end TagFormat
