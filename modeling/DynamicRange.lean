import DynamicRange.Scalar.Decibel
import DynamicRange.Decimal.Shortest
import DynamicRange.Decimal.Fixed
import DynamicRange.Decimal.Literal
import DynamicRange.Text.Blank
import DynamicRange.Envelope
import DynamicRange.Line
import DynamicRange.Compressor
import DynamicRange.Buffer
import DynamicRange.Frame
import DynamicRange.Settings.Text
import DynamicRange.Reader
import DynamicRange.Preset.File
import DynamicRange.Wav.File
import DynamicRange.Command.Run
import DynamicRange.Main
import DynamicRange.Proofs.Engine.Stream
import DynamicRange.Proofs.Pairing.Conservation
import DynamicRange.Proofs.Sidechain.Schedule
import DynamicRange.Proofs.Cursor
import DynamicRange.Proofs.Duet
import DynamicRange.Proofs.Scalar.Order
import DynamicRange.Proofs.Settings.Validity
import DynamicRange.Proofs.Engine.Coherence
import DynamicRange.Proofs.Coherence
import DynamicRange.Proofs.SelfKeyed
import DynamicRange.Proofs.Settings.Value
import DynamicRange.Proofs.Preset.Applied
import DynamicRange.Proofs.Command.Override
import DynamicRange.Proofs.Knee.Real
import DynamicRange.Proofs.Knee.Onset
import DynamicRange.Proofs.Knee.Exact
import DynamicRange.Proofs.Knee.Domain
import DynamicRange.Proofs.Engine.Attenuation
import DynamicRange.Proofs.Toml.Document
import DynamicRange.Proofs.Preset.Document
import DynamicRange.Proofs.Decimal.Packing
import DynamicRange.Proofs.Decimal.Rounding
import DynamicRange.Proofs.Decimal.Positional
import DynamicRange.Proofs.Decimal.Shortest
import DynamicRange.Proofs.Text
import DynamicRange.Proofs.Decimal.Literal
import DynamicRange.Proofs.Settings.Grammar
import DynamicRange.Proofs.Settings.Text
import DynamicRange.Proofs.Preset.Resolved
import DynamicRange.Proofs.Settings.Agreement
import DynamicRange.Proofs.Solo
import DynamicRange.Proofs.Command.Compress
import DynamicRange.Proofs.Scalar.Word
import DynamicRange.Proofs.Scalar.Error
import DynamicRange.Proofs.Engine.Level
import DynamicRange.Proofs.Engine.Bypass
import DynamicRange.Proofs.Preset.Report
import DynamicRange.Proofs.Sidechain.Request
import DynamicRange.Proofs.Reset
import DynamicRange.Proofs.Reader
import DynamicRange.Proofs.Buffer
import DynamicRange.Proofs.Refusal
import DynamicRange.Proofs.Wav.Decoded
import DynamicRange.Proofs.Hermite
import DynamicRange.Proofs.Settings.Storage
import DynamicRange.Proofs.Settings.Flat
import DynamicRange.Proofs.Engine.Causality
import DynamicRange.Proofs.Envelope.Exact
import DynamicRange.Proofs.Settings.Named
import DynamicRange.Proofs.Command.Listing
import DynamicRange.Proofs.Levels
import DynamicRange.Proofs.Lookup
import DynamicRange.Proofs.Rate
import DynamicRange.Proofs.Engine.Symmetry
import DynamicRange.Proofs.Interleaving
