import BodyText.Host
import BodyText.Proofs.BareAmpersand
import BodyText.Proofs.ChunkProtocol
import BodyText.Proofs.Conservation
import BodyText.Proofs.Cursor
import BodyText.Proofs.Delivery
import BodyText.Proofs.Events
import BodyText.Proofs.Failures
import BodyText.Proofs.HostCalls
import BodyText.Proofs.LetterCase
import BodyText.Proofs.LineLimit
import BodyText.Proofs.LineNumbers
import BodyText.Proofs.LinkedText
import BodyText.Proofs.MixedSessions
import BodyText.Proofs.NormalForm
import BodyText.Proofs.Numbers
import BodyText.Proofs.Preformatted
import BodyText.Proofs.References
import BodyText.Proofs.Resumption
import BodyText.Proofs.SkippedBlocks
import BodyText.Proofs.TagOffsets
import BodyText.Proofs.Termination
import BodyText.Proofs.Utf16
import BodyText.Proofs.WrittenTags
import BodyText.Session
