import TableMotion.Amount.Json
import TableMotion.Playback
import TableMotion.Main
import TableMotion.Stage
import TableMotion.Proofs.Pruning
import TableMotion.Proofs.Settling
import TableMotion.Proofs.Keeping
import TableMotion.Proofs.Querying
import TableMotion.Proofs.Outranking
import TableMotion.Proofs.Straying
import TableMotion.Proofs.Rewinding
import TableMotion.Proofs.Sessions
import TableMotion.Proofs.Rejecting
import TableMotion.Proofs.Scrambling
import TableMotion.Proofs.Staging
import TableMotion.Proofs.Passing
import TableMotion.Proofs.Tweening
import TableMotion.Proofs.Repruning
import TableMotion.Proofs.Appending
import TableMotion.Proofs.Winning
import TableMotion.Proofs.Prevailing
import TableMotion.Proofs.Returning
import TableMotion.Proofs.Detecting
import TableMotion.Proofs.Merging
import TableMotion.Proofs.Addressing
import TableMotion.Proofs.Escaping
