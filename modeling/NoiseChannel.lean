import NoiseChannel.Link.Options
import NoiseChannel.Pipes
import NoiseChannel.Proofs.Areas
import NoiseChannel.Proofs.Canonical
import NoiseChannel.Proofs.Continuable
import NoiseChannel.Proofs.Counterparts
import NoiseChannel.Proofs.Delivery
import NoiseChannel.Proofs.Embedded
import NoiseChannel.Proofs.Entry
import NoiseChannel.Proofs.Epochs
import NoiseChannel.Proofs.Failed
import NoiseChannel.Proofs.Fallback
import NoiseChannel.Proofs.Inherited
import NoiseChannel.Proofs.InPlace
import NoiseChannel.Proofs.Naming
import NoiseChannel.Proofs.Overhead
import NoiseChannel.Proofs.Prologue
import NoiseChannel.Proofs.Provenance
import NoiseChannel.Proofs.Provision
import NoiseChannel.Proofs.Refinement
import NoiseChannel.Proofs.Refused
import NoiseChannel.Proofs.Respelled
import NoiseChannel.Proofs.RoundTrip
import NoiseChannel.Proofs.Setup
import NoiseChannel.Proofs.Supplied
import NoiseChannel.Proofs.Transcript
import NoiseChannel.Proofs.WriterCalls
import NoiseChannel.Transport
